import Zeth.Circuit.Blake2sWitness

/-!
# The wires of the compression gadget

The words of `BLAKE2s_256_comp` lie one after the other from the first free wire on. Their order on the
board is not the order in which the witness generator writes them, so each word gets the time of its
write; no word is read before that time.

## Main definitions

* `Zeth.Circuit.Blake2s256Comp.LaidOut`: the words of a gadget allocated from a given wire on.
* `Zeth.Circuit.Blake2s256Comp.writeTime`: when a word is written.

## Main results

* `Zeth.Circuit.Blake2s256Comp.laidOut_new`: the layout of a new gadget.
* `Zeth.Circuit.Blake2s256Comp.LaidOut.ranked_writes`: the writes of a gadget are in this order.
-/

namespace Zeth.Circuit

open R1CS List

variable {F : Type} [Field F] [DecidableEq F]

namespace Blake2s256Comp

/-! ### Layout -/

/-- The words from `start` on, one after the other. -/
def wordFrom (start k : ℕ) : WordVar := ⟨List.range' (start + 32 * k) 32, length_range'⟩

/-- The words that mixing gadget `j` of round `i` reads. -/
def sourceIndex (i : Fin 10) (j : Fin 8) (p : Fin 16) : ℕ :=
  if j.val < 4 then 40 + (16 * i + p) else 216 + (16 * i + p)

/-- The words that mixing gadget `j` of round `i` returns. -/
def targetIndex (i : Fin 10) (j : Fin 8) (p : Fin 16) : ℕ :=
  if j.val < 4 then 216 + (16 * i + p) else 40 + (16 * (i + 1) + p)

/-- The words that mixing gadget `j` of round `i` allocates. -/
def ownIndex (i : Fin 10) (j : Fin 8) (k : ℕ) : ℕ := 376 + (6 * (8 * i + j) + k)

theorem two_mul_lt (j : Fin 8) : 2 * j.val < 16 := by omega

theorem two_mul_succ_lt (j : Fin 8) : 2 * j.val + 1 < 16 := by omega

/-- Mixing gadget `j` of round `i`. -/
def gadgetAt (start : ℕ) (i : Fin 10) (j : Fin 8) : GPrimitive where
  a := wordFrom start (sourceIndex i j (positions j 0))
  b := wordFrom start (sourceIndex i j (positions j 1))
  c := wordFrom start (sourceIndex i j (positions j 2))
  d := wordFrom start (sourceIndex i j (positions j 3))
  x := wordFrom start (sigma i ⟨2 * j, two_mul_lt j⟩)
  y := wordFrom start (sigma i ⟨2 * j + 1, two_mul_succ_lt j⟩)
  a1 := wordFrom start (ownIndex i j 0)
  b1 := wordFrom start (ownIndex i j 1)
  c1 := wordFrom start (ownIndex i j 2)
  d1 := wordFrom start (ownIndex i j 3)
  a1Temp := wordFrom start (ownIndex i j 4)
  a2Temp := wordFrom start (ownIndex i j 5)
  a2 := wordFrom start (targetIndex i j (positions j 0))
  b2 := wordFrom start (targetIndex i j (positions j 1))
  c2 := wordFrom start (targetIndex i j (positions j 2))
  d2 := wordFrom start (targetIndex i j (positions j 3))

/-- The words of a compression gadget that were allocated from `start` on. -/
structure LaidOut (g : Blake2s256Comp) (start : ℕ) : Prop where
  block : ∀ j : Fin 16, g.block.get j = wordFrom start j
  hArray : ∀ i : Fin 8, g.hArray.get i = wordFrom start (16 + 3 * i)
  outTemp : ∀ i : Fin 8, g.outTemp.get i = wordFrom start (17 + 3 * i)
  outputBytes : ∀ i : Fin 8, g.outputBytes.get i = wordFrom start (18 + 3 * i)
  v : ∀ (i : Fin 11) (j : Fin 16), (g.v.get i).get j = wordFrom start (40 + (16 * i + j))
  vTemp : ∀ (i : Fin 10) (j : Fin 16), (g.vTemp.get i).get j = wordFrom start (216 + (16 * i + j))
  gArrays : ∀ i j, (g.gArrays.get i).get j = gadgetAt start i j
  xorVector : g.xorVector = xorGadgets (g.v.get (Fin.last 10)) g.hArray g.outTemp g.outputBytes

theorem allocateArray_eq_wordFrom (start m : ℕ) :
    allocateArray 32 (start + 32 * m) = (wordFrom start m, start + 32 * (m + 1)) := rfl

theorem state_layout (start m : ℕ) :
    (state (start + 32 * m)).2 = start + 32 * (m + 16) ∧
      ∀ j : Fin 16, (state (start + 32 * m)).1.get j = wordFrom start (m + j) := by
  obtain ⟨hnext, hget⟩ := Alloc.forEach_const (n := 16) (c := 32) (fun _ => allocateArray 32)
    (fun _ _ => rfl) (start + 32 * m)
  refine ⟨hnext.trans (by ring), fun j => (hget j).trans ?_⟩
  rw [show start + 32 * m + j * 32 = start + 32 * (m + j) by ring, allocateArray_eq_wordFrom]

theorem states_layout (n start m : ℕ) :
    (Alloc.forEach n (fun _ => state) (start + 32 * m)).2 = start + 32 * (m + 16 * n) ∧
      ∀ (i : Fin n) (j : Fin 16), ((Alloc.forEach n (fun _ => state) (start + 32 * m)).1.get i).get j =
        wordFrom start (m + (16 * i + j)) := by
  have hstate (s : ℕ) : (state s).2 = s + 512 := (state_layout s 0).1
  obtain ⟨hnext, hget⟩ := Alloc.forEach_const (n := n) (c := 512) (fun _ => state)
    (fun _ => hstate) (start + 32 * m)
  refine ⟨hnext.trans (by ring), fun i j => ?_⟩
  rw [hget i, show start + 32 * m + i * 512 = start + 32 * (m + 16 * i) by ring,
    (state_layout start (m + 16 * i)).2 j, Nat.add_assoc]

theorem outputWords_layout (start m : ℕ) :
    outputWords (start + 32 * m) = ((wordFrom start m, wordFrom start (m + 1),
      wordFrom start (m + 2)), start + 32 * (m + 3)) := rfl

theorem gPrimitive_layout (a b c d x y a2 b2 c2 d2 : WordVar) (start m : ℕ) :
    GPrimitive.new a b c d x y a2 b2 c2 d2 (start + 32 * m) =
      (⟨a, b, c, d, x, y, wordFrom start m, wordFrom start (m + 1), wordFrom start (m + 2),
        wordFrom start (m + 3), wordFrom start (m + 4), wordFrom start (m + 5), a2, b2, c2, d2⟩,
        start + 32 * (m + 6)) := by
  simp only [GPrimitive.new, Alloc.bind_apply, Alloc.pure_apply, allocateArray_eq_wordFrom]

theorem mixingGadget_layout {block : StateVar} {v : List.Vector StateVar 11}
    {vTemp : List.Vector StateVar 10} {start : ℕ}
    (hblock : ∀ j : Fin 16, block.get j = wordFrom start j)
    (hv : ∀ (i : Fin 11) (j : Fin 16), (v.get i).get j = wordFrom start (40 + (16 * i + j)))
    (hvTemp : ∀ (i : Fin 10) (j : Fin 16),
      (vTemp.get i).get j = wordFrom start (216 + (16 * i + j)))
    (i : Fin 10) (j : Fin 8) :
    (mixingGadget block v vTemp i j (start + 32 * ownIndex i j 0)).1 = gadgetAt start i j := by
  have hsource (p : Fin 16) : (if j.val < 4 then v.get i.castSucc else vTemp.get i).get p =
      wordFrom start (sourceIndex i j p) := by
    rw [sourceIndex]
    split_ifs
    · exact hv i.castSucc p
    · exact hvTemp i p
  have htarget (p : Fin 16) : (if j.val < 4 then vTemp.get i else v.get i.succ).get p =
      wordFrom start (targetIndex i j p) := by
    rw [targetIndex]
    split_ifs
    · exact hvTemp i p
    · exact hv i.succ p
  rw [mixingGadget, gPrimitive_layout]
  simp only [hsource, htarget, hblock]
  rfl

/-- A mixing gadget takes six words. -/
theorem mixingGadget_next (block : StateVar) (v : List.Vector StateVar 11)
    (vTemp : List.Vector StateVar 10) (i : Fin 10) (j : Fin 8) (next : ℕ) :
    (mixingGadget block v vTemp i j next).2 = next + 192 := rfl

/-- The eighty mixing gadgets, from word 376 on. -/
theorem mixingGadgets_layout {block : StateVar} {v : List.Vector StateVar 11}
    {vTemp : List.Vector StateVar 10} {start : ℕ}
    (hblock : ∀ j : Fin 16, block.get j = wordFrom start j)
    (hv : ∀ (i : Fin 11) (j : Fin 16), (v.get i).get j = wordFrom start (40 + (16 * i + j)))
    (hvTemp : ∀ (i : Fin 10) (j : Fin 16),
      (vTemp.get i).get j = wordFrom start (216 + (16 * i + j))) :
    let gs := Alloc.forEach 10 (fun i => Alloc.forEach 8 fun j => mixingGadget block v vTemp i j)
      (start + 32 * 376)
    gs.2 = start + 32 * 856 ∧ ∀ i j, (gs.1.get i).get j = gadgetAt start i j := by
  have hround (i : Fin 10) (next : ℕ) := Alloc.forEach_const (n := 8) (c := 192)
    (fun j => mixingGadget block v vTemp i j) (fun j s => mixingGadget_next block v vTemp i j s) next
  obtain ⟨hnext, hget⟩ := Alloc.forEach_const (n := 10) (c := 1536)
    (fun i => Alloc.forEach 8 fun j => mixingGadget block v vTemp i j)
    (fun i s => (hround i s).1.trans (by ring)) (start + 32 * 376)
  refine ⟨hnext.trans (by ring), fun i j => ?_⟩
  rw [hget i, (hround i _).2 j, ← mixingGadget_layout hblock hv hvTemp i j]
  congr 2
  rw [ownIndex]
  ring

/-- The wires a gadget is made for. -/
theorem new_wires (h inputBlock output : List Var) (start : ℕ) :
    (new h inputBlock output start).1.h = h ∧
      (new h inputBlock output start).1.inputBlock = inputBlock ∧
      (new h inputBlock output start).1.output = output := by
  rw [new, Alloc.bind_apply, Alloc.bind_apply, Alloc.bind_apply, Alloc.bind_apply, Alloc.bind_apply,
    Alloc.pure_apply]
  exact ⟨rfl, rfl, rfl⟩

/-- The layout of a new gadget. -/
theorem laidOut_new (h inputBlock output : List Var) (start : ℕ) :
    (new h inputBlock output start).1.LaidOut start ∧
      (new h inputBlock output start).2 = start + 32 * 856 := by
  obtain ⟨hblock, hblockGet⟩ := state_layout start 0
  obtain ⟨hwords, hwordsGet⟩ := Alloc.forEach_const (n := 8) (c := 96) (fun _ => outputWords)
    (fun _ _ => rfl) (start + 32 * 16)
  obtain ⟨hv, hvGet⟩ := states_layout 11 start 40
  obtain ⟨hvTemp, hvTempGet⟩ := states_layout 10 start 216
  simp only [Nat.mul_zero, Nat.add_zero, Nat.zero_add] at hblock hblockGet
  obtain ⟨hgs, hgsGet⟩ := mixingGadgets_layout hblockGet hvGet hvTempGet
  have hword (i : Fin 8) := (hwordsGet i).trans (congrArg Prod.fst
    ((congrArg outputWords (show start + 32 * 16 + i * 96 = start + 32 * (16 + 3 * i) by ring)).trans
      (outputWords_layout start (16 + 3 * i))))
  replace hwords := hwords.trans (show start + 32 * 16 + 8 * 96 = start + 32 * 40 by ring)
  replace hv := hv.trans (show start + 32 * (40 + 16 * 11) = start + 32 * 216 by ring)
  replace hvTemp := hvTemp.trans (show start + 32 * (216 + 16 * 10) = start + 32 * 376 by ring)
  rw [new, Alloc.bind_of_next hblock, Alloc.bind_of_next hwords, Alloc.bind_of_next hv,
    Alloc.bind_of_next hvTemp, Alloc.bind_of_next hgs, Alloc.pure_apply]
  refine ⟨⟨hblockGet, fun i => ?_, fun i => ?_, fun i => ?_, hvGet, hvTempGet, hgsGet, rfl⟩, rfl⟩
  · rw [List.Vector.get_map, hword]
  · rw [List.Vector.get_map, hword, show 16 + 3 * i.val + 1 = 17 + 3 * i by ring]
  · rw [List.Vector.get_map, hword, show 16 + 3 * i.val + 2 = 18 + 3 * i by ring]

/-! ### The order of the writes -/

/-- The place of a result of a mixing gadget among its ten writes, by its row of the working vector. -/
def resultSlot (row : ℕ) : ℕ := if row = 0 then 6 else 10 - row

/-- The place of a word that a mixing gadget allocates among its ten writes. -/
def ownSlot (k : ℕ) : ℕ := [1, 4, 3, 2, 0, 5].getD k 0

/-- When the word with this index is written: the message words, the chaining value, the working
vector before the first round, ten words for each mixing gadget and the final exclusive ors. -/
def writeTime (k : ℕ) : ℕ :=
  if k < 16 then 0
  else if k < 40 then
    if (k - 16) % 3 = 0 then 1
    else if (k - 16) % 3 = 1 then 818 + (k - 16) / 3 else 826 + (k - 16) / 3
  else if k < 56 then 2 + (k - 40)
  else if k < 216 then
    -- position `p` of `v[i + 1]` is a result of the gadget of its diagonal
    let i := (k - 56) / 16
    let p := (k - 56) % 16
    18 + 10 * (8 * i + (4 + (p % 4 + 4 - p / 4) % 4)) + resultSlot (p / 4)
  else if k < 376 then
    let i := (k - 216) / 16
    let p := (k - 216) % 16
    18 + 10 * (8 * i + p % 4) + resultSlot (p / 4)
  else 18 + 10 * ((k - 376) / 6) + ownSlot ((k - 376) % 6)

/-- The ranks of a gadget's own wires are the times of their writes, counted from `lo`. -/
def Timed (rank : Var → ℕ) (start lo : ℕ) : Prop :=
  ∀ k < 856, ∀ v ∈ (wordFrom start k).toList, rank v = lo + writeTime k

theorem writeTime_block (j : Fin 16) : writeTime j = 0 := if_pos j.isLt

theorem writeTime_hArray (i : Fin 8) : writeTime (16 + 3 * i) = 1 := by
  rw [writeTime, if_neg (by omega), if_pos (by omega), if_pos (by omega)]

theorem writeTime_outTemp (i : Fin 8) : writeTime (17 + 3 * i) = 818 + i := by
  rw [writeTime, if_neg (by omega), if_pos (by omega), if_neg (by omega), if_pos (by omega)]
  omega

theorem writeTime_outputBytes (i : Fin 8) : writeTime (18 + 3 * i) = 826 + i := by
  rw [writeTime, if_neg (by omega), if_pos (by omega), if_neg (by omega), if_neg (by omega)]
  omega

theorem writeTime_first (j : Fin 16) : writeTime (40 + j) = 2 + j := by
  rw [writeTime, if_neg (by omega), if_neg (by omega), if_pos (by omega)]
  omega

theorem writeTime_v (i : Fin 10) (p : Fin 16) : writeTime (40 + (16 * (i + 1) + p)) =
    18 + 10 * (8 * i + (4 + (p % 4 + 4 - p / 4) % 4)) + resultSlot (p / 4) := by
  have hi : (40 + (16 * (i.val + 1) + p.val) - 56) / 16 = i.val := by omega
  have hp : (40 + (16 * (i.val + 1) + p.val) - 56) % 16 = p.val := by omega
  rw [writeTime, if_neg (by omega), if_neg (by omega), if_neg (by omega), if_pos (by omega), hi, hp]

theorem writeTime_vTemp (i : Fin 10) (p : Fin 16) : writeTime (216 + (16 * i + p)) =
    18 + 10 * (8 * i + p % 4) + resultSlot (p / 4) := by
  have hi : (216 + (16 * i.val + p.val) - 216) / 16 = i.val := by omega
  have hp : (216 + (16 * i.val + p.val) - 216) % 16 = p.val := by omega
  rw [writeTime, if_neg (by omega), if_neg (by omega), if_neg (by omega), if_neg (by omega),
    if_pos (by omega), hi, hp]

theorem writeTime_ownIndex (i : Fin 10) (j : Fin 8) {k : ℕ} (hk : k < 6) :
    writeTime (ownIndex i j k) = 18 + 10 * (8 * i + j) + ownSlot k := by
  have hdiv : (ownIndex i j k - 376) / 6 = 8 * i + j := by
    rw [ownIndex]
    omega
  have hmod : (ownIndex i j k - 376) % 6 = k := by
    rw [ownIndex]
    omega
  have hge : 376 ≤ ownIndex i j k := Nat.le_add_right _ _
  rw [writeTime, if_neg (by omega), if_neg (by omega), if_neg (by omega), if_neg (by omega),
    if_neg (by omega), hdiv, hmod]

/-- The rows and columns, or diagonals, of the positions. -/
theorem positions_row (j : Fin 8) (r : Fin 4) : (positions j r).val / 4 = r := by
  revert j r
  decide

theorem positions_column (j : Fin 8) (r : Fin 4) :
    (if j.val < 4 then (positions j r).val % 4
      else 4 + ((positions j r).val % 4 + 4 - (positions j r).val / 4) % 4) = j := by
  revert j r
  decide

theorem writeTime_targetIndex (i : Fin 10) (j : Fin 8) (r : Fin 4) :
    writeTime (targetIndex i j (positions j r)) = 18 + 10 * (8 * i + j) + resultSlot r := by
  have hcolumn := positions_column j r
  rw [targetIndex]
  split_ifs at hcolumn ⊢
  · rw [writeTime_vTemp, positions_row, hcolumn]
  · rw [writeTime_v, hcolumn, positions_row]

theorem resultSlot_lt (row : ℕ) : resultSlot row < 10 := by
  rw [resultSlot]
  split_ifs
  · decide
  · omega

/-- What a mixing gadget reads was written before. -/
theorem writeTime_sourceIndex_lt (i : Fin 10) (j : Fin 8) (p : Fin 16) :
    writeTime (sourceIndex i j p) < 18 + 10 * (8 * i + j) := by
  have hslot := resultSlot_lt (p / 4)
  rw [sourceIndex]
  split_ifs with hj
  · obtain ⟨_ | i, hi⟩ := i
    · rw [Nat.mul_zero, Nat.zero_add, writeTime_first]
      omega
    · have hv := writeTime_v ⟨i, by omega⟩ p
      dsimp only at hv ⊢
      omega
  · rw [writeTime_vTemp]
    omega

end Blake2s256Comp

section Wf

/-- The wires of the word are distinct, and the constant wire is not among them. -/
structure IsOwn (w : WordVar) : Prop where
  nodup : w.toList.Nodup
  one_notMem : ONE ∉ w.toList

theorem wf_sumWrite {a b res : WordVar} (hres : IsOwn res) : (sumWrite (F := F) a b res).Wf where
  nodup := hres.nodup
  one_notMem := hres.one_notMem
  length_value σ := by
    have hlen : (bitsOf σ a.toList).length = (bitsOf σ b.toList).length := by simp
    simp only [sumWrite, length_map, length_addLoop hlen, length_bitsOf,
      List.Vector.toList_length]

omit [Field F] [DecidableEq F] in
theorem mem_of_mem_map_get {n : ℕ} {res : List.Vector Var n} {f : Fin n → Fin n} {v : Var}
    (h : v ∈ (List.finRange n).map fun i => res.get (f i)) : v ∈ res.toList := by
  obtain ⟨i, -, rfl⟩ := mem_map.mp h
  exact List.Vector.get_mem _ _

theorem wf_xorWrite {a b res : WordVar} {f : Fin 32 → Fin 32} (hf : Function.Injective f)
    (hres : IsOwn res) : (xorWrite (F := F) a b fun i => res.get (f i)).Wf where
  nodup := by
    refine List.Nodup.map ?_ (nodup_finRange 32)
    exact (List.Vector.nodup_iff_injective_get.mp hres.nodup).comp hf
  one_notMem h := hres.one_notMem (mem_of_mem_map_get h)
  length_value σ := by rw [xorWrite, length_map, length_map]

theorem target_injective {shift : ℕ} (hshift : shift < 32) :
    Function.Injective (XorRotGadget.target (n := 32) shift) :=
  Finite.injective_iff_surjective.mpr (target_surjective hshift)

theorem GPrimitive.wf_writes {g : GPrimitive}
    (h : ∀ w ∈ [g.a1Temp, g.a1, g.d1, g.c1, g.b1, g.a2Temp, g.a2, g.d2, g.c2, g.b2], IsOwn w) :
    ∀ w ∈ g.writes (F := F), w.Wf := by
  simp only [forall_mem_cons] at h
  obtain ⟨ha1Temp, ha1, hd1, hc1, hb1, ha2Temp, ha2, hd2, hc2, hb2, -⟩ := h
  simp only [writes, forall_mem_cons]
  exact ⟨wf_sumWrite ha1Temp, wf_sumWrite ha1, wf_xorWrite (target_injective (by decide)) hd1,
    wf_sumWrite hc1, wf_xorWrite (target_injective (by decide)) hb1, wf_sumWrite ha2Temp,
    wf_sumWrite ha2, wf_xorWrite (target_injective (by decide)) hd2, wf_sumWrite hc2,
    wf_xorWrite (target_injective (by decide)) hb2, forall_mem_nil _⟩

end Wf

section Ranked

variable {rank : Var → ℕ} {lo hi : ℕ} {ws : List (Write F)}

theorem ranked_sumWrite {a b res : WordVar} (hres : ∀ v ∈ res.toList, rank v = lo)
    (ha : ∀ v ∈ a.toList, rank v < lo) (hb : ∀ v ∈ b.toList, rank v < lo)
    (hws : Ranked rank (lo + 1) ws hi) : Ranked rank lo (sumWrite a b res :: ws) hi :=
  ⟨hres, fun v hv => (mem_append.mp hv).elim (ha v) (hb v), hws⟩

theorem ranked_xorWrite {n : ℕ} {a b res : List.Vector Var n} {place : Fin n → Fin n}
    (hres : ∀ v ∈ res.toList, rank v = lo) (ha : ∀ v ∈ a.toList, rank v < lo)
    (hb : ∀ v ∈ b.toList, rank v < lo) (hws : Ranked rank (lo + 1) ws hi) :
    Ranked rank lo (xorWrite a b (fun i => res.get (place i)) :: ws) hi :=
  ⟨fun v hv => hres v (mem_of_mem_map_get hv),
    fun v hv => (mem_append.mp hv).elim (ha v) (hb v), hws⟩

/-- The writes of a mixing gadget are ranked, when its words have the ranks of their places. -/
theorem GPrimitive.ranked_writes {g : GPrimitive}
    (hreads : ∀ w ∈ [g.a, g.b, g.c, g.d, g.x, g.y], ∀ v ∈ w.toList, rank v < lo)
    (ha1Temp : ∀ v ∈ g.a1Temp.toList, rank v = lo) (ha1 : ∀ v ∈ g.a1.toList, rank v = lo + 1)
    (hd1 : ∀ v ∈ g.d1.toList, rank v = lo + 2) (hc1 : ∀ v ∈ g.c1.toList, rank v = lo + 3)
    (hb1 : ∀ v ∈ g.b1.toList, rank v = lo + 4) (ha2Temp : ∀ v ∈ g.a2Temp.toList, rank v = lo + 5)
    (ha2 : ∀ v ∈ g.a2.toList, rank v = lo + 6) (hd2 : ∀ v ∈ g.d2.toList, rank v = lo + 7)
    (hc2 : ∀ v ∈ g.c2.toList, rank v = lo + 8) (hb2 : ∀ v ∈ g.b2.toList, rank v = lo + 9) :
    Ranked rank lo (g.writes (F := F)) (lo + 10) := by
  have hread {w : WordVar} (hw : w ∈ [g.a, g.b, g.c, g.d, g.x, g.y]) (k : ℕ) :
      ∀ v ∈ w.toList, rank v < lo + k := fun v hv => (hreads w hw v hv).trans_le (Nat.le_add_right lo k)
  have hown {w : WordVar} {m : ℕ} (hw : ∀ v ∈ w.toList, rank v = lo + m) (k : ℕ) (hmk : m < k) :
      ∀ v ∈ w.toList, rank v < lo + k := fun v hv => by
    rw [hw v hv]
    exact Nat.add_lt_add_left hmk lo
  refine ranked_sumWrite ha1Temp (hread (by simp) 0) (hread (by simp) 0) ?_
  refine ranked_sumWrite ha1 (hown (m := 0) ha1Temp 1 (by decide)) (hread (by simp) 1) ?_
  refine ranked_xorWrite hd1 (hread (by simp) 2) (hown ha1 2 (by decide)) ?_
  refine ranked_sumWrite hc1 (hread (by simp) 3) (hown hd1 3 (by decide)) ?_
  refine ranked_xorWrite hb1 (hread (by simp) 4) (hown hc1 4 (by decide)) ?_
  refine ranked_sumWrite ha2Temp (hown ha1 5 (by decide)) (hown hb1 5 (by decide)) ?_
  refine ranked_sumWrite ha2 (hown ha2Temp 6 (by decide)) (hread (by simp) 6) ?_
  refine ranked_xorWrite hd2 (hown hd1 7 (by decide)) (hown ha2 7 (by decide)) ?_
  refine ranked_sumWrite hc2 (hown hc1 8 (by decide)) (hown hd2 8 (by decide)) ?_
  exact ranked_xorWrite hb2 (hown hb1 9 (by decide)) (hown hc2 9 (by decide)) rfl

end Ranked

namespace Blake2s256Comp

section Rank

variable {rank : Var → ℕ} {start lo : ℕ} (hr : Timed rank start lo)

include hr

theorem Timed.ranked_gadgetAt (i : Fin 10) (j : Fin 8) :
    Ranked rank (lo + 18 + (8 * i + j) * 10) ((gadgetAt start i j).writes (F := F))
      (lo + 18 + (8 * i + j) * 10 + 10) := by
  have hi := i.isLt
  have hj := j.isLt
  have hown {k n : ℕ} (hk : k < 6) (hn : ownSlot k = n) :
      ∀ v ∈ (wordFrom start (ownIndex i j k)).toList, rank v = lo + 18 + (8 * i + j) * 10 + n := by
    intro v hv
    rw [hr _ (by rw [ownIndex]; omega) v hv, writeTime_ownIndex i j hk, hn]
    ring
  have hresult {n : ℕ} (r : Fin 4) (hn : resultSlot r = n) :
      ∀ v ∈ (wordFrom start (targetIndex i j (positions j r))).toList,
        rank v = lo + 18 + (8 * i + j) * 10 + n := by
    intro v hv
    rw [hr _ (by rw [targetIndex]; split_ifs <;> omega) v hv, writeTime_targetIndex, hn]
    ring
  have hsource (r : Fin 4) : ∀ v ∈ (wordFrom start (sourceIndex i j (positions j r))).toList,
      rank v < lo + 18 + (8 * i + j) * 10 := by
    intro v hv
    have htime := writeTime_sourceIndex_lt i j (positions j r)
    rw [hr _ (by rw [sourceIndex]; split_ifs <;> omega) v hv]
    omega
  have hmessage (s : Fin 16) : ∀ v ∈ (wordFrom start s).toList,
      rank v < lo + 18 + (8 * i + j) * 10 := by
    intro v hv
    rw [hr _ (by omega) v hv, writeTime_block]
    omega
  refine GPrimitive.ranked_writes ?_ (hown (by decide) rfl) (hown (by decide) rfl)
    (hown (by decide) rfl) (hown (by decide) rfl) (hown (by decide) rfl) (hown (by decide) rfl)
    (hresult 0 rfl) (hresult 3 rfl) (hresult 2 rfl) (hresult 1 rfl)
  simp only [forall_mem_cons]
  exact ⟨hsource 0, hsource 1, hsource 2, hsource 3, hmessage _, hmessage _, forall_mem_nil _⟩

end Rank

theorem toList_eq_map_get {α : Type} {n : ℕ} (v : List.Vector α n) :
    v.toList = (List.finRange n).map v.get := by
  conv_lhs => rw [← List.Vector.ofFn_get v]
  rw [List.Vector.toList_ofFn, ofFn_eq_map]

section Order

variable {g : Blake2s256Comp} {start : ℕ} (hg : g.LaidOut start)

theorem LaidOut.mixingWrites_eq (hg : g.LaidOut start) : g.mixingWrites (F := F) =
    (List.finRange 10).flatMap fun i => (List.finRange 8).flatMap fun j =>
      (gadgetAt start i j).writes := by
  rw [mixingWrites, toList_eq_map_get, flatMap_map]
  refine flatMap_congr fun i _ => ?_
  rw [toList_eq_map_get, flatMap_map]
  refine flatMap_congr fun j _ => ?_
  rw [hg.gArrays]

section Rank

variable {rank : Var → ℕ} {lo : ℕ} (hr : Timed rank start lo)

include hg hr

theorem LaidOut.ranked_mixingWrites :
    Ranked rank (lo + 18) (g.mixingWrites (F := F)) (lo + 818) := by
  rw [hg.mixingWrites_eq]
  refine Ranked.flatMap (n := 10) (c := 80) fun i => ?_
  have hround : Ranked (F := F) rank (lo + 18 + i * 80)
      ((List.finRange 8).flatMap fun j => (gadgetAt start i j).writes)
      (lo + 18 + i * 80 + 8 * 10) := by
    refine Ranked.flatMap (n := 8) (c := 10) fun j => ?_
    have hgadget := hr.ranked_gadgetAt (F := F) i j
    rwa [show lo + 18 + (8 * i.val + j) * 10 = lo + 18 + i * 80 + j * 10 by ring,
      show lo + 18 + i.val * 80 + j * 10 + 10 = lo + 18 + i * 80 + (j + 1) * 10 by ring] at hgadget
  rwa [show lo + 18 + i.val * 80 + 8 * 10 = lo + 18 + (i + 1) * 80 by ring] at hround

theorem LaidOut.rank_hArray (i : Fin 8) : ∀ v ∈ (g.hArray.get i).toList, rank v = lo + 1 := by
  intro v hv
  rw [hg.hArray] at hv
  rw [hr _ (by omega) v hv, writeTime_hArray]

theorem LaidOut.ranked_vWrites (t : List Bool × List Bool) (isLastBlock : Bool) :
    Ranked rank (lo + 2) (g.vWrites (F := F) t isLastBlock) (lo + 18) := by
  have hfirst (j : Fin 16) : ∀ v ∈ ((g.v.get 0).get j).toList, rank v = lo + 2 + j := by
    intro v hv
    rw [hg.v, Fin.val_zero, Nat.mul_zero, Nat.zero_add] at hv
    rw [hr _ (by omega) v hv, writeTime_first, Nat.add_assoc]
  refine (Ranked.flatMap_singleton (n := 8) (fun i v hv => ?_) fun i v hv => ?_).append
    (Ranked.flatMap_singleton (n := 8) (fun i v hv => ?_) fun i => forall_mem_nil _)
  · rw [hfirst _ v hv, Fin.val_castLE]
  · rw [hg.rank_hArray hr i v hv]
    omega
  · rw [hfirst _ v hv, Fin.val_natAdd]
    ring

theorem LaidOut.ranked_xorWrites :
    Ranked rank (lo + 818) (g.xorWrites (F := F)) (lo + 834) := by
  have houtTemp (i : Fin 8) : ∀ v ∈ (g.outTemp.get i).toList, rank v = lo + 818 + i := by
    intro v hv
    rw [hg.outTemp] at hv
    rw [hr _ (by omega) v hv, writeTime_outTemp, Nat.add_assoc]
  have houtputBytes (i : Fin 8) : ∀ v ∈ (g.outputBytes.get i).toList, rank v = lo + 826 + i := by
    intro v hv
    rw [hg.outputBytes] at hv
    rw [hr _ (by omega) v hv, writeTime_outputBytes, Nat.add_assoc]
  have hlast (p : Fin 16) : ∀ v ∈ ((g.v.get (Fin.last 10)).get p).toList, rank v < lo + 818 := by
    intro v hv
    rw [hg.v, Fin.val_last] at hv
    have htime : writeTime (40 + (16 * 10 + p)) =
      18 + 10 * (8 * 9 + (4 + (p % 4 + 4 - p / 4) % 4)) + resultSlot (p / 4) :=
      writeTime_v (Fin.last 9) p
    have hslot := resultSlot_lt (p / 4)
    rw [hr _ (by omega) v hv]
    omega
  rw [xorWrites, hg.xorVector, xorGadgets, flatMap_append, flatMap_map, flatMap_map]
  refine (Ranked.flatMap_singleton (n := 8) (fun i v hv => ?_) fun i v hv => ?_).append
    (Ranked.flatMap_singleton (n := 8) (fun i v hv => ?_) fun i v hv => ?_)
  · exact houtTemp i v (mem_of_mem_map_get (f := id) hv)
  · rcases mem_append.mp hv with hv | hv
    · exact (hlast _ v hv).trans_le (Nat.le_add_right _ _)
    · exact (hlast _ v hv).trans_le (Nat.le_add_right _ _)
  · exact houtputBytes i v (mem_of_mem_map_get (f := id) hv)
  · rcases mem_append.mp hv with hv | hv
    · rw [houtTemp i v hv]
      omega
    · rw [hg.rank_hArray hr i v hv]
      omega

/-- The writes of a compression gadget take 835 ranks. -/
theorem LaidOut.ranked_writes (hinput : ∀ v ∈ g.inputBlock, rank v < lo)
    (hh : ∀ v ∈ g.h, rank v < lo) (hout : ∀ v ∈ g.output, rank v = lo + 834)
    (lenByteTotal : BitVec 64) (isLastBlock : Bool) :
    Ranked rank lo (g.writes (F := F) lenByteTotal isLastBlock) (lo + 835) := by
  have hown : Ranked rank lo (g.ownWrites (F := F) lenByteTotal isLastBlock) (lo + 834) := by
    refine ⟨fun v hv => ?_, hinput, fun v hv => ?_, fun v hv => (hh v hv).trans (Nat.lt_succ_self lo),
      (hg.ranked_vWrites hr _ _).append ((hg.ranked_mixingWrites hr).append (hg.ranked_xorWrites hr))⟩
    · obtain ⟨j, -, hv⟩ := mem_flatMap.mp hv
      rw [hg.block] at hv
      rw [hr _ (by omega) v hv, writeTime_block, Nat.add_zero]
    · obtain ⟨i, -, hv⟩ := mem_flatMap.mp hv
      exact hg.rank_hArray hr i v hv
  refine hown.append ⟨hout, fun v hv => ?_, rfl⟩
  obtain ⟨i, -, hv⟩ := mem_flatMap.mp hv
  rw [hg.outputBytes] at hv
  rw [hr _ (by omega) v hv, writeTime_outputBytes]
  omega

end Rank

theorem isOwn_wordFrom (hstart : 0 < start) (k : ℕ) : IsOwn (wordFrom start k) where
  nodup := nodup_range'
  one_notMem h := by
    obtain ⟨hle, -⟩ : start + 32 * k ≤ 0 ∧ _ := mem_range'_1.mp h
    omega

/-- Words with different indices, one after the other. -/
theorem nodup_flatMap_wordFrom {n : ℕ} {f : Fin n → ℕ} (hf : Function.Injective f) (start : ℕ) :
    ((List.finRange n).flatMap fun i => (wordFrom start (f i)).toList).Nodup := by
  refine nodup_flatMap.mpr ⟨fun i _ => nodup_range', ?_⟩
  refine (nodup_finRange n).imp fun {i j} hne v hi hj => ?_
  have hi : start + 32 * f i ≤ v ∧ v < start + 32 * f i + 32 := mem_range'_1.mp hi
  have hj : start + 32 * f j ≤ v ∧ v < start + 32 * f j + 32 := mem_range'_1.mp hj
  have hfij : f i ≠ f j := fun h => hne (hf h)
  obtain ⟨hi, hi'⟩ := hi
  obtain ⟨hj, hj'⟩ := hj
  have h1 := hi.trans_lt hj'
  have h2 := hj.trans_lt hi'
  omega

include hg

omit [DecidableEq F] in
theorem LaidOut.wf_blockWrite (hstart : 0 < start) : (g.blockWrite (F := F)).Wf where
  nodup := by
    simp only [blockWrite, hg.block]
    exact nodup_flatMap_wordFrom Fin.val_injective start
  one_notMem h := by
    obtain ⟨j, -, hj⟩ := mem_flatMap.mp h
    rw [hg.block] at hj
    exact (isOwn_wordFrom hstart _).one_notMem hj
  length_value σ := by
    have hpart (i : Fin 16) : (((g.paddedInput σ).drop (32 * i)).take 32).length = 32 :=
      length_part (length_paddedInput σ) i.isLt
    simp only [blockWrite, length_flatMap, length_swapBytes, hpart, List.Vector.toList_length]

theorem LaidOut.wf_hWrite (hstart : 0 < start) (hh : g.h.length = 256) :
    (g.hWrite (F := F)).Wf where
  nodup := by
    simp only [hWrite, hg.hArray]
    refine nodup_flatMap_wordFrom (fun i j h => Fin.ext ?_) start
    have h : 16 + 3 * i.val = 16 + 3 * j.val := h
    omega
  one_notMem h := by
    obtain ⟨i, -, hi⟩ := mem_flatMap.mp h
    rw [hg.hArray] at hi
    exact (isOwn_wordFrom hstart _).one_notMem hi
  length_value σ := by
    have hpart (i : Fin 8) : (((bitsOf σ g.h).drop (32 * i)).take 32).length = 32 :=
      length_part (by rw [length_bitsOf, hh]) i.isLt
    simp only [hWrite, length_flatMap, length_map, hpart, List.Vector.toList_length]

theorem LaidOut.wf_vWrites (hstart : 0 < start) (lenByteTotal : BitVec 64) (isLastBlock : Bool) :
    ∀ w ∈ g.vWrites (F := F) (setupCounter lenByteTotal) isLastBlock, w.Wf := by
  have hown (j : Fin 16) : IsOwn ((g.v.get 0).get j) := by
    rw [hg.v]
    exact isOwn_wordFrom hstart _
  intro w hw
  rcases mem_append.mp hw with hw | hw
  · obtain ⟨i, -, hw⟩ := mem_flatMap.mp hw
    obtain rfl := mem_singleton.mp hw
    refine ⟨(hown _).nodup, (hown _).one_notMem, fun σ => ?_⟩
    simp only [copyWrite, length_map, length_bitsOf, List.Vector.toList_length]
  · obtain ⟨i, -, hw⟩ := mem_flatMap.mp hw
    obtain rfl := mem_singleton.mp hw
    refine ⟨(hown _).nodup, (hown _).one_notMem, fun σ => ?_⟩
    simp only [constWrite, length_map, length_vConstants, List.Vector.toList_length]

theorem LaidOut.wf_mixingWrites (hstart : 0 < start) : ∀ w ∈ g.mixingWrites (F := F), w.Wf := by
  intro w hw
  rw [hg.mixingWrites_eq] at hw
  obtain ⟨i, -, hw⟩ := mem_flatMap.mp hw
  obtain ⟨j, -, hw⟩ := mem_flatMap.mp hw
  refine GPrimitive.wf_writes ?_ w hw
  simp only [forall_mem_cons]
  have hown := isOwn_wordFrom hstart
  exact ⟨hown _, hown _, hown _, hown _, hown _, hown _, hown _, hown _, hown _, hown _,
    forall_mem_nil _⟩

theorem LaidOut.wf_xorWrites (hstart : 0 < start) : ∀ w ∈ g.xorWrites (F := F), w.Wf := by
  intro w hw
  obtain ⟨x, hx, hw⟩ := mem_flatMap.mp hw
  obtain rfl := mem_singleton.mp hw
  refine wf_xorWrite (f := id) Function.injective_id ?_
  rw [hg.xorVector] at hx
  rcases mem_append.mp hx with hx | hx
  · obtain ⟨i, -, rfl⟩ := mem_map.mp hx
    rw [hg.outTemp]
    exact isOwn_wordFrom hstart _
  · obtain ⟨i, -, rfl⟩ := mem_map.mp hx
    rw [hg.outputBytes]
    exact isOwn_wordFrom hstart _

theorem LaidOut.wf_writes (hstart : 0 < start) (hlen : g.h.length = 256) (hout : g.output.Nodup)
    (hone : ONE ∉ g.output) (houtLen : g.output.length = 256) (lenByteTotal : BitVec 64)
    (isLastBlock : Bool) : ∀ w ∈ g.writes (F := F) lenByteTotal isLastBlock, w.Wf := by
  simp only [writes, ownWrites, forall_mem_append, forall_mem_cons]
  refine ⟨⟨hg.wf_blockWrite hstart, hg.wf_hWrite hstart hlen,
    hg.wf_vWrites hstart lenByteTotal isLastBlock, hg.wf_mixingWrites hstart,
    hg.wf_xorWrites hstart⟩, ⟨hout, hone, fun σ => ?_⟩, forall_mem_nil _⟩
  rw [outputWrite, houtLen, length_flatMap]
  cases isLastBlock with
  | false => simp
  | true => simp [length_swapBytes]

end Order

end Blake2s256Comp

end Zeth.Circuit
