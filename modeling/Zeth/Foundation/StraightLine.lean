import Zeth.Foundation.R1CS

/-!
# Straight-line writes to a board

A witness generator writes arrays of wires one after the other, with values computed from wires that
it reads. When no write changes a wire that was read or written before, the equations of all writes
hold of the final assignment, so the rows of a circuit can be checked there one by one.

The order is shown by a rank of wires: every write gives its targets the next rank and reads wires of
smaller ranks.

## Main definitions

* `R1CS.Write`, `R1CS.runWrites`: writes and their run.
* `R1CS.InOrder`: no write changes what was read or written before.
* `R1CS.Ranked`: the writes have consecutive ranks.

## Main results

* `R1CS.InOrder.holds`: the equations hold at the end.
* `R1CS.Ranked.inOrder`: ranked writes are in order.
-/

namespace R1CS

open List

variable {F : Type} [One F]

/-! ### Arrays -/

namespace Assignment

theorem fill_append (σ : Assignment F) {vs ws : List Var} {xs ys : List F}
    (hlen : vs.length = xs.length) :
    σ.fill (vs ++ ws) (xs ++ ys) = (σ.fill vs xs).fill ws ys := by
  induction vs generalizing σ xs with
  | nil =>
    obtain rfl := eq_nil_of_length_eq_zero hlen.symm
    rfl
  | cons v vs ih =>
    obtain _ | ⟨x, xs⟩ := xs
    · cases hlen
    · exact ih (σ.set v x) (Nat.succ.inj hlen)

/-- Arrays written one by one. -/
theorem foldl_fill {ι : Type} (is : List ι) {target : ι → List Var} {value : ι → List F}
    (hlen : ∀ i ∈ is, (target i).length = (value i).length) (σ : Assignment F) :
    is.foldl (fun σ i => σ.fill (target i) (value i)) σ =
      σ.fill (is.flatMap target) (is.flatMap value) := by
  induction is generalizing σ with
  | nil => rfl
  | cons i is ih =>
    obtain ⟨hi, his⟩ := forall_mem_cons.mp hlen
    rw [foldl_cons, flatMap_cons, flatMap_cons, fill_append _ hi, ih his]

/-- Wires written one by one, with values that do not depend on them. -/
theorem foldl_set_eq_fill {ι : Type} (is : List ι) (target : ι → Var)
    (value : Assignment F → ι → F) (σ : Assignment F)
    (hvalue : ∀ τ : Assignment F, (∀ v, v ∉ is.map target → τ v = σ v) →
      ∀ i ∈ is, value τ i = value σ i) :
    is.foldl (fun τ i => τ.set (target i) (value τ i)) σ =
      σ.fill (is.map target) (is.map (value σ)) := by
  have hrest (js : List ι) (hjs : ∀ j ∈ js, j ∈ is) (τ : Assignment F)
      (hτ : ∀ v, v ∉ is.map target → τ v = σ v) :
      js.foldl (fun τ i => τ.set (target i) (value τ i)) τ =
        τ.fill (js.map target) (js.map (value σ)) := by
    induction js generalizing τ with
    | nil => rfl
    | cons j js ih =>
      obtain ⟨hj, hjs⟩ := forall_mem_cons.mp hjs
      rw [foldl_cons, map_cons, map_cons, fill, hvalue τ hτ j hj]
      refine ih hjs _ fun v hv => ?_
      have hne : v ≠ target j := fun h => hv (h ▸ mem_map_of_mem hj)
      rw [set_of_ne _ _ hne, hτ v hv]
  exact hrest is (fun _ h => h) σ fun _ _ => rfl

end Assignment

/-! ### Writes -/

/-- An array of wires and the values it gets, which depend on the wires that are read. -/
structure Write (F : Type) [One F] where
  target : List Var
  reads : List Var
  value : Assignment F → List F
  value_congr : ∀ {σ τ : Assignment F}, (∀ v ∈ reads, σ v = τ v) → value σ = value τ

namespace Write

def run (w : Write F) (σ : Assignment F) : Assignment F := σ.fill w.target (w.value σ)

/-- The equation of a write: the targets have its values. -/
def Holds (w : Write F) (σ : Assignment F) : Prop := w.target.map σ = w.value σ

/-- The targets are distinct, with one value for each, and the constant wire is not among them. -/
structure Wf (w : Write F) : Prop where
  nodup : w.target.Nodup
  one_notMem : ONE ∉ w.target
  length_value : ∀ σ, (w.value σ).length = w.target.length

/-- The targets are not read either. -/
structure Fresh (w : Write F) : Prop extends w.Wf where
  notMem_reads : ∀ v ∈ w.target, v ∉ w.reads

end Write

/-- Writes one after the other. -/
def runWrites (ws : List (Write F)) (σ : Assignment F) : Assignment F :=
  ws.foldl (fun σ w => w.run σ) σ

theorem runWrites_cons (w : Write F) (ws : List (Write F)) (σ : Assignment F) :
    runWrites (w :: ws) σ = runWrites ws (w.run σ) := rfl

theorem runWrites_append (ws us : List (Write F)) (σ : Assignment F) :
    runWrites (ws ++ us) σ = runWrites us (runWrites ws σ) := foldl_append

theorem runWrites_flatMap {ι : Type} (f : ι → List (Write F)) (is : List ι) (σ : Assignment F) :
    runWrites (is.flatMap f) σ = is.foldl (fun σ i => runWrites (f i) σ) σ := foldl_flatMap

theorem runWrites_of_notMem {ws : List (Write F)} {v : Var} (h : ∀ w ∈ ws, v ∉ w.target)
    (σ : Assignment F) : runWrites ws σ v = σ v := by
  induction ws generalizing σ with
  | nil => rfl
  | cons w ws ih =>
    obtain ⟨hw, hws⟩ := forall_mem_cons.mp h
    rw [runWrites_cons, ih hws]
    exact σ.fill_of_notMem _ _ hw

/-- No write changes a wire that it reads or that was read or written before. -/
structure InOrder (ws : List (Write F)) : Prop where
  fresh : ∀ w ∈ ws, w.Fresh
  pairwise : ws.Pairwise fun w u => ∀ v ∈ u.target, v ∉ w.target ∧ v ∉ w.reads

namespace InOrder

variable {w : Write F} {ws us : List (Write F)}

theorem tail (h : InOrder (w :: ws)) : InOrder ws where
  fresh := (forall_mem_cons.mp h.fresh).2
  pairwise := (pairwise_cons.mp h.pairwise).2

/-- Writes in order, followed by writes in order that change nothing the first ones read or wrote. -/
theorem append (hws : InOrder ws) (hus : InOrder us)
    (hlater : ∀ w ∈ ws, ∀ u ∈ us, ∀ v ∈ u.target, v ∉ w.target ∧ v ∉ w.reads) :
    InOrder (ws ++ us) where
  fresh w hw := (mem_append.mp hw).elim (hws.fresh w) (hus.fresh w)
  pairwise := pairwise_append.mpr ⟨hws.pairwise, hus.pairwise, hlater⟩

theorem singleton (h : w.Fresh) : InOrder [w] where
  fresh := forall_mem_singleton.mpr h
  pairwise := pairwise_singleton _ _

/-- **Equations of writes.** After writes in order, every target has the value of its write. -/
theorem holds (h : InOrder ws) (σ : Assignment F) : ∀ w ∈ ws, w.Holds (runWrites ws σ) := by
  induction ws generalizing σ with
  | nil => exact forall_mem_nil _
  | cons w ws ih =>
    obtain ⟨hfresh, -⟩ := forall_mem_cons.mp h.fresh
    obtain ⟨hlater, -⟩ := pairwise_cons.mp h.pairwise
    refine forall_mem_cons.mpr ⟨?_, fun u hu => ih h.tail (w.run σ) u hu⟩
    have htarget : w.target.map (runWrites (w :: ws) σ) = w.target.map (w.run σ) :=
      map_congr_left fun v hv =>
        runWrites_of_notMem (fun u hu hmem => (hlater u hu v hmem).1 hv) _
    have hreads : ∀ v ∈ w.reads, runWrites (w :: ws) σ v = σ v := fun v hv =>
      (runWrites_of_notMem (fun u hu hmem => (hlater u hu v hmem).2 hv) _).trans
        (σ.fill_of_notMem _ _ fun hmem => hfresh.notMem_reads v hmem hv)
    rw [Write.Holds, htarget, w.value_congr hreads]
    exact σ.map_fill _ _ hfresh.nodup hfresh.one_notMem (hfresh.length_value σ).symm

end InOrder

/-! ### Ranks -/

/-- Each write has as targets wires of the next rank, from `lo` up to `hi`, and reads wires of smaller
ranks. -/
def Ranked (rank : Var → ℕ) : ℕ → List (Write F) → ℕ → Prop
  | lo, [], hi => lo = hi
  | lo, w :: ws, hi =>
    (∀ v ∈ w.target, rank v = lo) ∧ (∀ v ∈ w.reads, rank v < lo) ∧ Ranked rank (lo + 1) ws hi

namespace Ranked

variable {rank : Var → ℕ} {lo mid hi : ℕ} {ws us : List (Write F)}

theorem append (hws : Ranked rank lo ws mid) (hus : Ranked rank mid us hi) :
    Ranked rank lo (ws ++ us) hi := by
  induction ws generalizing lo with
  | nil =>
    obtain rfl : lo = mid := hws
    exact hus
  | cons w ws ih => exact ⟨hws.1, hws.2.1, ih hws.2.2⟩

/-- Groups of writes of one length, by number. -/
theorem flatMap_range {n c : ℕ} {f : ℕ → List (Write F)}
    (h : ∀ i < n, Ranked rank (lo + i * c) (f i) (lo + (i + 1) * c)) :
    Ranked rank lo ((List.range n).flatMap f) (lo + n * c) := by
  induction n with
  | zero => exact (congrArg (lo + ·) (Nat.zero_mul c)).symm
  | succ n ih =>
    rw [range_succ, flatMap_append, flatMap_singleton]
    exact (ih fun i hi => h i (hi.trans (Nat.lt_succ_self n))).append (h n (Nat.lt_succ_self n))

/-- Groups of writes of one length. -/
theorem flatMap {n c : ℕ} {f : Fin n → List (Write F)}
    (h : ∀ i : Fin n, Ranked rank (lo + i * c) (f i) (lo + (i + 1) * c)) :
    Ranked rank lo ((List.finRange n).flatMap f) (lo + n * c) := by
  induction n generalizing lo with
  | zero => exact (congrArg (lo + ·) (Nat.zero_mul c)).symm
  | succ n ih =>
    rw [finRange_succ, flatMap_cons, flatMap_map]
    have hfirst := h 0
    rw [Fin.val_zero, Nat.zero_mul, Nat.add_zero, Nat.zero_add, Nat.one_mul] at hfirst
    refine hfirst.append ?_
    have hrest : Ranked rank (lo + c) ((List.finRange n).flatMap fun i => f i.succ)
        (lo + c + n * c) := ih fun i => by
      have hi := h i.succ
      rw [Fin.val_succ] at hi
      rwa [show lo + c + i * c = lo + (i + 1) * c by ring,
        show lo + c + (i + 1) * c = lo + (i + 1 + 1) * c by ring]
    rwa [show lo + c + n * c = lo + (n + 1) * c by ring] at hrest

/-- One write for each index. -/
theorem flatMap_singleton {n : ℕ} {f : Fin n → Write F}
    (htarget : ∀ i, ∀ v ∈ (f i).target, rank v = lo + i)
    (hreads : ∀ i, ∀ v ∈ (f i).reads, rank v < lo + i) :
    Ranked rank lo ((List.finRange n).flatMap fun i => [f i]) (lo + n) := by
  have h : Ranked rank lo ((List.finRange n).flatMap fun i => [f i]) (lo + n * 1) := by
    refine flatMap fun i => ?_
    refine ⟨fun v hv => ?_, fun v hv => ?_, show lo + i * 1 + 1 = lo + (i + 1) * 1 by ring⟩
    · rw [htarget i v hv, Nat.mul_one]
    · rw [Nat.mul_one]
      exact hreads i v hv
  rwa [Nat.mul_one] at h

/-- The ranks of what later writes change. -/
theorem le_of_mem_target (h : Ranked rank lo ws hi) : ∀ w ∈ ws, ∀ v ∈ w.target, lo ≤ rank v := by
  induction ws generalizing lo with
  | nil => exact forall_mem_nil _
  | cons w ws ih =>
    refine forall_mem_cons.mpr ⟨fun v hv => (h.1 v hv).ge, fun u hu v hv => ?_⟩
    exact (Nat.le_succ lo).trans (ih h.2.2 u hu v hv)

/-- Ranked writes of distinct wires are in order. -/
theorem inOrder (h : Ranked rank lo ws hi) (hwf : ∀ w ∈ ws, w.Wf) : InOrder ws := by
  induction ws generalizing lo with
  | nil => exact ⟨forall_mem_nil _, List.Pairwise.nil⟩
  | cons w ws ih =>
    obtain ⟨hw, hws⟩ := forall_mem_cons.mp hwf
    obtain ⟨htarget, hreads, hrest⟩ := h
    have hfresh : w.Fresh := ⟨hw, fun v hv hmem => (hreads v hmem).ne (htarget v hv)⟩
    refine (InOrder.singleton hfresh).append (ih hrest hws) ?_
    refine forall_mem_singleton.mpr fun u hu v hv => ?_
    have hlt : lo < rank v := hrest.le_of_mem_target u hu v hv
    exact ⟨fun hmem => hlt.ne' (htarget v hmem), fun hmem => hlt.not_gt (hreads v hmem)⟩

end Ranked

end R1CS
