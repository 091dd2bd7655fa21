import Zeth.Circuit.Blake2sLayout

/-!
# The compression function on the board

What the equations of the writes of a compression gadget say about its words. On a block of bytes and
a chaining value, the words are those of the compression function of the specification, so the rows
hold and the output carries the next chaining value.

The words of a working vector are followed through a round by the words that stand for its positions:
a mixing gadget replaces four of them.

## Main definitions

* `Zeth.Circuit.CarriesState`: sixteen words carry a working vector.

## Main results

* `Zeth.Circuit.GPrimitive.carriesFour_of_holds`: a mixing gadget.
* `Zeth.Circuit.Blake2s256Comp.LaidOut.carriesState_round`: a round.
-/

namespace Zeth.Circuit

open R1CS ByteString
open List hiding Vector

variable {F : Type} [Field F]

/-! ### Bytes of words -/

theorem toBits_eq (bs : Bytes) : toBits bs = bs.flatMap wordBits := rfl

theorem toBits_four (b0 b1 b2 b3 : BitVec 8) :
    toBits [b0, b1, b2, b3] = wordBits (b0 ++ b1 ++ b2 ++ b3) := by
  rw [wordBits_append, wordBits_append, wordBits_append, toBits_eq, flatMap_cons,
    flatMap_cons, flatMap_cons, flatMap_singleton, append_assoc,
    append_assoc]

/-- The bytes of a word, in the other order. -/
theorem swapBytes_toBits (b0 b1 b2 b3 : BitVec 8) :
    swapBytes (toBits [b0, b1, b2, b3]) = toBits [b3, b2, b1, b0] := by
  have hpart {i : ℕ} (hi : i < 4) := take_drop_flatMap_of_length (c := 8)
    (f := fun b : BitVec 8 => wordBits b) length_wordBits [b0, b1, b2, b3] hi
  have hfirst := hpart (i := 0) (by decide)
  rw [Nat.mul_zero, drop_zero] at hfirst
  rw [swapBytes_four (by rw [toBits_four, length_wordBits]), toBits_eq, hpart (i := 3) (by decide),
    hpart (i := 2) (by decide), hpart (i := 1) (by decide), hfirst, toBits_four, wordBits_append,
    wordBits_append, wordBits_append]
  rfl

theorem append_extractLsb (w : Blake2s.Word) : w.extractLsb' 24 8 ++ w.extractLsb' 16 8 ++
    w.extractLsb' 8 8 ++ w.extractLsb' 0 8 = w := by
  refine BitVec.eq_of_getLsbD_eq fun i hi => ?_
  simp only [BitVec.getLsbD_append, BitVec.getLsbD_extractLsb']
  split_ifs with h1 h2 h3
  · rw [decide_eq_true h1, Bool.true_and, Nat.zero_add]
  · rw [decide_eq_true h2, Bool.true_and, Nat.add_sub_of_le (by omega)]
  · rw [decide_eq_true h3, Bool.true_and, show 16 + (i - 8 - 8) = i by omega]
  · rw [decide_eq_true (by omega), Bool.true_and, show 24 + (i - 8 - 8 - 8) = i by omega]

theorem swapBytes_wordBits (w : Blake2s.Word) :
    swapBytes (wordBits w) = toBits (Blake2s.wordBytes w) := by
  conv_lhs => rw [← append_extractLsb w]
  rw [← toBits_four, swapBytes_toBits]
  rfl

/-- Equal concatenations of parts of one length have equal parts. -/
theorem flatMap_finRange_inj {β : Type} {n c : ℕ} {f f' : Fin n → List β}
    (hf : ∀ i, (f i).length = c) (hf' : ∀ i, (f' i).length = c)
    (h : (List.finRange n).flatMap f = (List.finRange n).flatMap f') (i : Fin n) : f i = f' i := by
  have hi : i.val < (List.finRange n).length := by simp
  have hpart := take_drop_flatMap_of_length hf (List.finRange n) hi
  rw [h, take_drop_flatMap_of_length hf' _ hi] at hpart
  simpa using hpart.symm

theorem vector_toList_eq {α : Type} {n : ℕ} (v : Vector α n) :
    v.toList = (List.finRange n).map fun i => v[i] :=
  ext_getElem (by simp) fun i hi hi' => by simp

/-- Word `i` of a block of bytes. -/
theorem take_drop_toBits {bytes : Bytes} (hbytes : bytes.length = 64) (i : Fin 16) :
    ((toBits bytes).drop (32 * i)).take 32 = toBits [bytes.getD (4 * i) 0, bytes.getD (4 * i + 1) 0,
      bytes.getD (4 * i + 2) 0, bytes.getD (4 * i + 3) 0] := by
  have hi := i.isLt
  rw [toBits_eq, show 32 * i.val = 8 * (4 * i) by ring, show 32 = 8 * 4 by rfl,
    drop_flatMap_of_length length_wordBits, take_flatMap_of_length length_wordBits, toBits_eq]
  rw [drop_eq_getElem_cons (show 4 * i.val < bytes.length by omega),
    drop_eq_getElem_cons (show 4 * i.val + 1 < bytes.length by omega),
    drop_eq_getElem_cons (show 4 * i.val + 1 + 1 < bytes.length by omega),
    drop_eq_getElem_cons (show 4 * i.val + 1 + 1 + 1 < bytes.length by omega),
    getD_eq_getElem _ _ (show 4 * i.val < bytes.length by omega),
    getD_eq_getElem _ _ (show 4 * i.val + 1 < bytes.length by omega),
    getD_eq_getElem _ _ (show 4 * i.val + 2 < bytes.length by omega),
    getD_eq_getElem _ _ (show 4 * i.val + 3 < bytes.length by omega)]
  rfl

/-- The message word. -/
theorem swapBytes_take_drop_toBits {bytes : Bytes} (hbytes : bytes.length = 64) (i : Fin 16) :
    swapBytes (((toBits bytes).drop (32 * i)).take 32) = wordBits (Blake2s.wordAt bytes i) := by
  rw [take_drop_toBits hbytes, swapBytes_toBits, toBits_four, Blake2s.wordAt]

/-! ### Single writes -/

section Writes

variable [DecidableEq F] {σ : Assignment F}

theorem CarriesWord.bitsOf_eq {w : WordVar} {x : Blake2s.Word} (h : CarriesWord σ w x) :
    bitsOf σ w.toList = wordBits x := (carries_bitsOf h.isBool).injective h

theorem carriesWord_of_sumWrite {a b res : WordVar} {x y : Blake2s.Word} (ha : CarriesWord σ a x)
    (hb : CarriesWord σ b y) (h : (sumWrite a b res).Holds σ) : CarriesWord σ res (x + y) := by
  have hlen : (wordBits x).length = (wordBits y).length := by simp
  have hsum := natOfBits_addLoop hlen
  have hloop : (addLoop (wordBits x) (wordBits y)).1.length = 32 := by
    rw [length_addLoop hlen, length_wordBits]
  have hbits : (addLoop (wordBits x) (wordBits y)).1 = wordBits (x + y) := by
    refine natOfBits_injective (by rw [hloop, length_wordBits]) ?_
    have hlt := natOfBits_lt (addLoop (wordBits x) (wordBits y)).1
    rw [hloop] at hlt
    rw [length_wordBits, natOfBits_wordBits, natOfBits_wordBits] at hsum
    rw [natOfBits_wordBits, BitVec.toNat_add, ← hsum, Nat.add_mul_mod_self_right,
      Nat.mod_eq_of_lt hlt]
  have h : res.toList.map σ = (addLoop (bitsOf σ a.toList) (bitsOf σ b.toList)).1.map ofBool := h
  rw [ha.bitsOf_eq, hb.bitsOf_eq, hbits] at h
  exact h

/-- The bits of an exclusive or, each at its position. -/
theorem apply_of_xorWrite {a b : WordVar} {res : Fin 32 → Var} {x y : Blake2s.Word}
    (ha : CarriesWord σ a x) (hb : CarriesWord σ b y) (h : (xorWrite a b res).Holds σ) (i : Fin 32) :
    σ (res i) = ofBool ((x ^^^ y).getMsbD i) := by
  have h : ((List.finRange 32).map res).map σ =
    (List.finRange 32).map fun i => xorValue (σ (a.get i)) (σ (b.get i)) := h
  rw [map_map] at h
  have hi := map_inj_left.mp h i (mem_finRange i)
  rw [Function.comp_apply, carriesWord_iff.mp ha, carriesWord_iff.mp hb, xorValue_ofBool] at hi
  rw [hi, BitVec.getMsbD_xor]

theorem carriesWord_of_xorWrite {a b res : WordVar} {x y : Blake2s.Word} (ha : CarriesWord σ a x)
    (hb : CarriesWord σ b y) (h : (xorWrite a b res.get).Holds σ) : CarriesWord σ res (x ^^^ y) :=
  carriesWord_iff.mpr (apply_of_xorWrite ha hb h)

theorem carriesWord_of_xorRotWrite {a b res : WordVar} {x y : Blake2s.Word} {shift : ℕ}
    (hshift : shift < 32) (ha : CarriesWord σ a x) (hb : CarriesWord σ b y)
    (h : (xorWrite a b fun i => res.get (XorRotGadget.target shift i)).Holds σ) :
    CarriesWord σ res ((x ^^^ y).rotateRight shift) := by
  refine carriesWord_iff.mpr ((target_surjective hshift).forall.mpr fun i => ?_)
  rw [getMsbD_rotateRight_target _ hshift]
  exact apply_of_xorWrite ha hb h i

/-! ### The mixing function -/

theorem HalfMixing.carriesFour_of_holds {h : HalfMixing} (hr : h.r < 32) (hs : h.s < 32)
    {a b c d x : Blake2s.Word} (hreads : CarriesFour σ h.a h.b h.c h.d (a, b, c, d))
    (hx : CarriesWord σ h.x x) (htemp : (sumWrite h.a h.b h.temp).Holds σ)
    (ha1 : (sumWrite h.temp h.x h.a1).Holds σ)
    (hd1 : (xorWrite h.d h.a1 fun i => h.d1.get (XorRotGadget.target h.r i)).Holds σ)
    (hc1 : (sumWrite h.c h.d1 h.c1).Holds σ)
    (hb1 : (xorWrite h.b h.c1 fun i => h.b1.get (XorRotGadget.target h.s i)).Holds σ) :
    CarriesWord σ h.temp (a + b) ∧
      CarriesFour σ h.a1 h.b1 h.c1 h.d1 (halfMix h.r h.s a b c d x) := by
  obtain ⟨ha, hb, hc, hd⟩ := hreads
  have htemp := carriesWord_of_sumWrite ha hb htemp
  have ha1 := carriesWord_of_sumWrite htemp hx ha1
  have hd1 := carriesWord_of_xorRotWrite hr hd ha1 hd1
  have hc1 := carriesWord_of_sumWrite hc hd1 hc1
  have hb1 := carriesWord_of_xorRotWrite hs hb hc1 hb1
  exact ⟨htemp, ha1, hb1, hc1, hd1⟩

/-- The equations of a mixing gadget give the words of the mixing function and the rows. -/
theorem GPrimitive.carriesFour_of_holds (L : Gadgetlib F) {g : GPrimitive}
    (h : ∀ w ∈ g.writes, w.Holds σ) {a b c d x y : Blake2s.Word}
    (hreads : CarriesFour σ g.a g.b g.c g.d (a, b, c, d)) (hx : CarriesWord σ g.x x)
    (hy : CarriesWord σ g.y y) :
    CarriesFour σ g.a2 g.b2 g.c2 g.d2 (Blake2s.mix a b c d x y) ∧ Satisfies σ (g.constraints L) := by
  simp only [writes, forall_mem_cons] at h
  obtain ⟨ha1Temp, ha1, hd1, hc1, hb1, ha2Temp, ha2, hd2, hc2, hb2, -⟩ := h
  obtain ⟨htemp, hmiddle⟩ := HalfMixing.carriesFour_of_holds (h := g.firstHalf)
    (show 16 < 32 by decide) (show 12 < 32 by decide) hreads hx ha1Temp ha1 hd1 hc1 hb1
  obtain ⟨htemp', hresult⟩ := HalfMixing.carriesFour_of_holds (h := g.secondHalf)
    (show 8 < 32 by decide) (show 7 < 32 by decide) hmiddle hy ha2Temp ha2 hd2 hc2 hb2
  refine ⟨hresult, (satisfies_iff_halves L).mpr ⟨?_, ?_⟩⟩
  · exact HalfMixing.satisfies_of_carriesFour L (show 16 < 32 by decide) (show 12 < 32 by decide)
      hreads hx htemp hmiddle
  · exact HalfMixing.satisfies_of_carriesFour L (show 8 < 32 by decide) (show 7 < 32 by decide)
      hmiddle hy htemp' hresult

/-! ### Rounds -/

/-- The words carry a working vector. -/
def CarriesState (σ : Assignment F) (w : Fin 16 → WordVar) (v : Vector Blake2s.Word 16) : Prop :=
  ∀ p : Fin 16, CarriesWord σ (w p) (v.get p)

/-- The words of a working vector after a mixing gadget at four positions. -/
def replaceFour (w : Fin 16 → WordVar) (a b c d : Fin 16) (g : GPrimitive) : Fin 16 → WordVar :=
  fun p => if d = p then g.d2 else if c = p then g.c2 else if b = p then g.b2
    else if a = p then g.a2 else w p

/-- A mixing gadget that reads four words of a working vector. -/
structure MixesAt (g : GPrimitive) (w : Fin 16 → WordVar) (a b c d : Fin 16) : Prop where
  a : g.a = w a
  b : g.b = w b
  c : g.c = w c
  d : g.d = w d

theorem CarriesState.mix (L : Gadgetlib F) {g : GPrimitive} (h : ∀ w ∈ g.writes, w.Holds σ)
    {w : Fin 16 → WordVar} {v : Vector Blake2s.Word 16} (hv : CarriesState σ w v)
    {a b c d : Fin 16} (hg : MixesAt g w a b c d) {x y : Blake2s.Word} (hx : CarriesWord σ g.x x)
    (hy : CarriesWord σ g.y y) :
    CarriesState σ (replaceFour w a b c d g) (Blake2s.G v a b c d x y) ∧
      Satisfies σ (g.constraints L) := by
  have hreads : CarriesFour σ g.a g.b g.c g.d (v[a], v[b], v[c], v[d]) :=
    ⟨hg.a ▸ hv a, hg.b ▸ hv b, hg.c ▸ hv c, hg.d ▸ hv d⟩
  obtain ⟨⟨ha2, hb2, hc2, hd2⟩, hrows⟩ := g.carriesFour_of_holds L h hreads hx hy
  refine ⟨fun p => ?_, hrows⟩
  simp only [replaceFour, Blake2s.G, Vector.get_eq_getElem, Fin.getElem_fin, Vector.getElem_set,
    Fin.val_inj]
  split_ifs
  · exact hd2
  · exact hc2
  · exact hb2
  · exact ha2
  · exact hv p

namespace Blake2s256Comp

theorem sigma_eq (i : Fin 10) (k : Fin 16) : sigma i k = Blake2s.SIGMA[i].get k := by
  revert i k
  decide

/-- A round: the columns go from `v[i]` to `v_temp[i]`, the diagonals from there to `v[i + 1]`. -/
theorem carriesState_round (L : Gadgetlib F) {start : ℕ} {i : Fin 10}
    (h : ∀ j, ∀ w ∈ (gadgetAt start i j).writes, w.Holds σ) {m : Vector Blake2s.Word 16}
    (hm : ∀ s : Fin 16, CarriesWord σ (wordFrom start s) (m.get s)) {v : Vector Blake2s.Word 16}
    (hv : CarriesState σ (fun p => wordFrom start (40 + (16 * i + p))) v) :
    CarriesState σ (fun p => wordFrom start (40 + (16 * (i + 1) + p)))
        (Blake2s.round m v Blake2s.SIGMA[i]) ∧
      ∀ j, Satisfies σ ((gadgetAt start i j).constraints L) := by
  have hx (j : Fin 8) : CarriesWord σ (gadgetAt start i j).x m[Blake2s.SIGMA[i][2 * j.val]] :=
    (congrArg (fun s : Fin 16 => CarriesWord σ _ m[s]) (sigma_eq i ⟨2 * j, by omega⟩)).mp (hm _)
  have hy (j : Fin 8) : CarriesWord σ (gadgetAt start i j).y m[Blake2s.SIGMA[i][2 * j.val + 1]] :=
    (congrArg (fun s : Fin 16 => CarriesWord σ _ m[s]) (sigma_eq i ⟨2 * j + 1, by omega⟩)).mp (hm _)
  obtain ⟨hv, h0⟩ := hv.mix L (h 0) (a := 0) (b := 4) (c := 8) (d := 12) ⟨rfl, rfl, rfl, rfl⟩
    (hx 0) (hy 0)
  obtain ⟨hv, h1⟩ := hv.mix L (h 1) (a := 1) (b := 5) (c := 9) (d := 13) ⟨rfl, rfl, rfl, rfl⟩
    (hx 1) (hy 1)
  obtain ⟨hv, h2⟩ := hv.mix L (h 2) (a := 2) (b := 6) (c := 10) (d := 14) ⟨rfl, rfl, rfl, rfl⟩
    (hx 2) (hy 2)
  obtain ⟨hv, h3⟩ := hv.mix L (h 3) (a := 3) (b := 7) (c := 11) (d := 15) ⟨rfl, rfl, rfl, rfl⟩
    (hx 3) (hy 3)
  obtain ⟨hv, h4⟩ := hv.mix L (h 4) (a := 0) (b := 5) (c := 10) (d := 15) ⟨rfl, rfl, rfl, rfl⟩
    (hx 4) (hy 4)
  obtain ⟨hv, h5⟩ := hv.mix L (h 5) (a := 1) (b := 6) (c := 11) (d := 12) ⟨rfl, rfl, rfl, rfl⟩
    (hx 5) (hy 5)
  obtain ⟨hv, h6⟩ := hv.mix L (h 6) (a := 2) (b := 7) (c := 8) (d := 13) ⟨rfl, rfl, rfl, rfl⟩
    (hx 6) (hy 6)
  obtain ⟨hv, h7⟩ := hv.mix L (h 7) (a := 3) (b := 4) (c := 9) (d := 14) ⟨rfl, rfl, rfl, rfl⟩
    (hx 7) (hy 7)
  constructor
  · -- every position is a result of one of the last four gadgets
    refine (congrArg (CarriesState σ · (Blake2s.round m v Blake2s.SIGMA[i]))
      (funext fun p => ?_)).mp hv
    fin_cases p <;> rfl
  · intro j
    fin_cases j
    · exact h0
    · exact h1
    · exact h2
    · exact h3
    · exact h4
    · exact h5
    · exact h6
    · exact h7

section Equations

variable {g : Blake2s256Comp} {start : ℕ} (hg : g.LaidOut start)

include hg

omit [DecidableEq F] in
theorem LaidOut.carriesWord_block (h : g.blockWrite.Holds σ) {bytes : Bytes}
    (hbytes : bytes.length = 64) (hinput : Carries σ g.inputBlock (toBits bytes)) (j : Fin 16) :
    CarriesWord σ (wordFrom start j) ((Blake2s.messageWords bytes).get j) := by
  have hlen : g.inputBlock.length = 512 := by rw [hinput.length_eq, length_toBits, hbytes]
  have hpadded : g.paddedInput σ = (toBits bytes).map ofBool := by
    rw [paddedInput, hlen, hinput]
    exact append_nil _
  have h : ((List.finRange 16).flatMap fun i => (g.block.get i).toList).map σ =
    (List.finRange 16).flatMap fun i : Fin 16 =>
      swapBytes (((g.paddedInput σ).drop (32 * i)).take 32) := h
  rw [map_flatMap] at h
  have hpart (i : Fin 16) : (((g.paddedInput σ).drop (32 * i)).take 32).length = 32 :=
    length_part (length_paddedInput σ) i.isLt
  have hj := flatMap_finRange_inj (c := 32) (fun i => by simp)
    (fun i => by rw [length_swapBytes, hpart]) h j
  rw [hpadded, ← map_drop, ← map_take, swapBytes_map, swapBytes_take_drop_toBits hbytes,
    hg.block] at hj
  rw [CarriesWord, Carries, Blake2s.messageWords, Vector.get_eq_getElem, Vector.getElem_ofFn]
  exact hj

omit hg in
theorem carriesWord_hArray (h : g.hWrite.Holds σ) {chain : Vector Blake2s.Word 8}
    (hchain : Carries σ g.h (chain.toList.flatMap wordBits)) (i : Fin 8) :
    CarriesWord σ (g.hArray.get i) (chain.get i) := by
  have hbits : bitsOf σ g.h = chain.toList.flatMap wordBits :=
    (carries_bitsOf hchain.isBool).injective hchain
  have h : ((List.finRange 8).flatMap fun i => (g.hArray.get i).toList).map σ =
    (List.finRange 8).flatMap fun i : Fin 8 =>
      (((bitsOf σ g.h).drop (32 * i)).take 32).map ofBool := h
  have hpart (i : Fin 8) : ((bitsOf σ g.h).drop (32 * i)).take 32 = wordBits chain[i] := by
    rw [hbits, take_drop_flatMap_of_length length_wordBits _ (by simp)]
    rfl
  simp only [map_flatMap, hpart] at h
  exact flatMap_finRange_inj (c := 32) (fun i => by simp) (fun i => by simp) h i

theorem LaidOut.carriesState_initial {lenByteTotal : BitVec 64} {isLastBlock : Bool}
    (h : ∀ w ∈ g.vWrites (setupCounter lenByteTotal) isLastBlock, w.Holds σ)
    {chain : Vector Blake2s.Word 8} (hchain : ∀ i : Fin 8, CarriesWord σ (g.hArray.get i) (chain.get i)) :
    CarriesState σ (fun p => wordFrom start (40 + (16 * 0 + p)))
      (Blake2s.initial chain lenByteTotal.toNat isLastBlock) := by
  intro p
  have hp : (g.v.get 0).get p = wordFrom start (40 + (16 * 0 + p)) := hg.v 0 p
  change CarriesWord σ (wordFrom start (40 + (16 * 0 + p))) _
  rw [← hp]
  simp only [vWrites, forall_mem_append, forall_mem_flatMap, forall_mem_singleton] at h
  obtain ⟨hcopy, hconst⟩ := h
  by_cases hlt : p.val < 8
  · have hbits := (hchain ⟨p, hlt⟩).bitsOf_eq
    have hword : (((g.v.get 0).get p).toList).map σ =
        (bitsOf σ (g.hArray.get ⟨p, hlt⟩).toList).map ofBool :=
      hcopy ⟨p, hlt⟩ (mem_finRange _)
    rw [hbits] at hword
    rw [Blake2s.initial, Vector.get_eq_getElem, Vector.getElem_append_left hlt]
    exact hword
  · obtain ⟨k, rfl⟩ : ∃ k : Fin 8, p = k.natAdd 8 :=
      ⟨⟨p - 8, by omega⟩, Fin.ext (show p.val = 8 + (p.val - 8) by omega)⟩
    have hword : (((g.v.get 0).get (k.natAdd 8)).toList).map σ =
        (vConstants (setupCounter lenByteTotal) isLastBlock k).map ofBool :=
      hconst k (mem_finRange k)
    rw [vConstants_eq chain] at hword
    exact hword

/-- The working vector after some rounds, and the rows of these rounds. -/
theorem LaidOut.carriesState_rounds (L : Gadgetlib F) (h : ∀ w ∈ g.mixingWrites, w.Holds σ)
    {m : Vector Blake2s.Word 16} (hm : ∀ s : Fin 16, CarriesWord σ (wordFrom start s) (m.get s))
    {v : Vector Blake2s.Word 16} (hv : CarriesState σ (fun p => wordFrom start (40 + (16 * 0 + p))) v)
    {n : ℕ} (hn : n ≤ 10) :
    CarriesState σ (fun p => wordFrom start (40 + (16 * n + p)))
        ((Blake2s.SIGMA.toList.take n).foldl (Blake2s.round m) v) ∧
      ∀ i : Fin 10, i.val < n → ∀ j, Satisfies σ ((gadgetAt start i j).constraints L) := by
  induction n with
  | zero => exact ⟨hv, fun i hi => absurd hi (Nat.not_lt_zero i)⟩
  | succ n ih =>
    obtain ⟨hv, hrows⟩ := ih (Nat.le_of_lt hn)
    have hlt : n < Blake2s.SIGMA.toList.length := hn
    have hround := carriesState_round L (i := ⟨n, hn⟩) (fun j w hw => h w <| by
      rw [hg.mixingWrites_eq]
      exact mem_flatMap.mpr ⟨_, mem_finRange _, mem_flatMap.mpr
        ⟨j, mem_finRange j, hw⟩⟩) hm hv
    rw [take_succ_eq_append_getElem hlt, foldl_append]
    refine ⟨hround.1, fun i hi => ?_⟩
    rcases Nat.lt_succ_iff_lt_or_eq.mp hi with hi | hi
    · exact hrows i hi
    · obtain rfl : i = ⟨n, hn⟩ := Fin.ext hi
      exact hround.2

/-- The final exclusive ors. -/
theorem LaidOut.carriesWord_outputBytes (h : ∀ w ∈ g.xorWrites, w.Holds σ)
    {chain : Vector Blake2s.Word 8} (hchain : ∀ i : Fin 8, CarriesWord σ (g.hArray.get i) (chain.get i))
    {v : Vector Blake2s.Word 16}
    (hv : CarriesState σ (fun p => wordFrom start (40 + (16 * 10 + p))) v) :
    Satisfies σ (g.xorVector.flatMap (XorGadget.constraints F)) ∧
      ∀ i : Fin 8, CarriesWord σ (g.outputBytes.get i)
        (chain.get i ^^^ v.get (i.castLE eight_le_sixteen) ^^^ v.get (i.natAdd 8)) := by
  simp only [xorWrites, hg.xorVector, xorGadgets, flatMap_append, flatMap_map,
    forall_mem_append, forall_mem_flatMap, forall_mem_singleton] at h
  obtain ⟨htemp, hout⟩ := h
  have hlast (p : Fin 16) : CarriesWord σ ((g.v.get (Fin.last 10)).get p) (v.get p) := by
    rw [hg.v]
    exact hv p
  have htemp (i : Fin 8) :=
    carriesWord_of_xorWrite (hlast (i.castLE eight_le_sixteen)) (hlast (i.natAdd 8))
      (htemp i (mem_finRange i))
  have hout (i : Fin 8) :=
    carriesWord_of_xorWrite (htemp i) (hchain i) (hout i (mem_finRange i))
  constructor
  · refine satisfies_flatMap.mpr fun x hx => ?_
    rw [hg.xorVector] at hx
    rcases mem_append.mp hx with hx | hx
    · obtain ⟨i, -, rfl⟩ := mem_map.mp hx
      exact (XorGadget.satisfies_iff_carriesWord (hlast _) (hlast _)).mpr (htemp i)
    · obtain ⟨i, -, rfl⟩ := mem_map.mp hx
      exact (XorGadget.satisfies_iff_carriesWord (htemp i) (hchain i)).mpr (hout i)
  · intro i
    have hresult := hout i
    rwa [BitVec.xor_comm, ← BitVec.xor_assoc] at hresult

/-- The bits of a chaining value on the output wires: the bytes of each word are swapped for the last
block. -/
def outputBits (isLastBlock : Bool) (chain : Vector Blake2s.Word 8) : List Bool :=
  if isLastBlock then toBits (chain.toList.flatMap Blake2s.wordBytes)
  else chain.toList.flatMap wordBits

omit hg [DecidableEq F] in
theorem carries_output {isLastBlock : Bool} (h : (g.outputWrite isLastBlock).Holds σ)
    {chain : Vector Blake2s.Word 8}
    (hchain : ∀ i : Fin 8, CarriesWord σ (g.outputBytes.get i) (chain.get i)) :
    Carries σ g.output (outputBits isLastBlock chain) := by
  have h : g.output.map σ = (List.finRange 8).flatMap fun i =>
    let outputByteValue := (g.outputBytes.get i).toList.map σ
    if isLastBlock then swapBytes outputByteValue else outputByteValue := h
  have hword (i : Fin 8) : (g.outputBytes.get i).toList.map σ = (wordBits chain[i]).map ofBool :=
    hchain i
  rw [Carries, h, outputBits, vector_toList_eq]
  cases isLastBlock with
  | false =>
    simp only [hword, Bool.false_eq_true, if_false, flatMap_map, map_flatMap]
  | true =>
    simp only [hword, if_true, swapBytes_map, swapBytes_wordBits, toBits_eq, flatMap_map,
      map_flatMap, flatMap_assoc]

/-- **The compression gadget.** On a block of bytes and a chaining value, the equations of the writes
give the rows and the compression function. -/
theorem LaidOut.carries_compress (L : Gadgetlib F) {lenByteTotal : BitVec 64} {isLastBlock : Bool}
    (h : ∀ w ∈ g.writes lenByteTotal isLastBlock, w.Holds σ) {bytes : Bytes}
    (hbytes : bytes.length = 64) (hinput : Carries σ g.inputBlock (toBits bytes))
    {chain : Vector Blake2s.Word 8} (hchain : Carries σ g.h (chain.toList.flatMap wordBits))
    (ensureOutputBitness : Bool) :
    Satisfies σ (g.constraints L ensureOutputBitness) ∧
      Carries σ g.output (outputBits isLastBlock
        (Blake2s.compress chain (Blake2s.messageWords bytes) lenByteTotal.toNat isLastBlock)) := by
  simp only [writes, ownWrites, forall_mem_append, forall_mem_cons] at h
  obtain ⟨⟨hblock, hh, hv, hmixing, hxor⟩, hout, -⟩ := h
  have hm := hg.carriesWord_block hblock hbytes hinput
  have hchain := carriesWord_hArray hh hchain
  have hv := hg.carriesState_initial hv hchain
  obtain ⟨hv, hrows⟩ := hg.carriesState_rounds L hmixing hm hv le_rfl
  obtain ⟨hxorRows, hresult⟩ := hg.carriesWord_outputBytes hxor hchain hv
  refine ⟨satisfies_append.mpr ⟨satisfies_flatMap.mpr fun gs hgs => satisfies_flatMap.mpr
    fun x hx => ?_, hxorRows⟩, carries_output hout fun i => ?_⟩
  · obtain ⟨i, rfl⟩ := (List.Vector.mem_iff_get _ _).mp hgs
    obtain ⟨j, rfl⟩ := (List.Vector.mem_iff_get _ _).mp hx
    rw [hg.gArrays]
    exact hrows i i.isLt j
  · have hresult := hresult i
    simp only [Vector.get_eq_getElem, Fin.val_natAdd, Nat.add_comm 8, Fin.val_castLE] at hresult
    rw [Blake2s.compress, Vector.get_eq_getElem, Vector.getElem_ofFn]
    exact hresult

end Equations

end Blake2s256Comp

end Writes

end Zeth.Circuit
