import Mathlib.Algebra.BigOperators.Group.List.Basic
import Mathlib.Algebra.BigOperators.Ring.List
import Mathlib.Data.Vector.Basic
import Mathlib.Tactic.Ring
import Zeth.Foundation.Numerals

/-!
# Rank-one constraint systems

A constraint system is a list of equations `⟨a, x⟩ · ⟨b, x⟩ = ⟨c, x⟩` between linear combinations
of the wires of a board. The wires are numbered in the order of their allocation; wire `0`
carries the constant one in every assignment.

## Main definitions

* `R1CS.LinearCombination`, `R1CS.Constraint`: the rows, with the arithmetic of linear
  combinations and their value under an assignment.
* `R1CS.Assignment`: values of all wires, one on the constant wire.
* `R1CS.Satisfies`: an assignment meets every row of a list.
* `R1CS.Alloc`: allocation of fresh wires, a state monad over the next free index.

## Main results

* `R1CS.satisfies_congr`: satisfaction reads only the wires that occur.
* `R1CS.map_fill`: reading back a written array of distinct wires.
* `R1CS.Alloc.forEach_get`: every result of an allocation loop comes from a run of its body.
* `R1CS.Alloc.From.bind`, `R1CS.Alloc.From.forEach`: what holds of the results of an allocating
  computation, step by step.
-/

namespace R1CS

open List

variable {F : Type*}

/-- A wire, by its index on the board. -/
abbrev Var := ℕ

/-- The wire that carries the constant one. -/
def ONE : Var := 0

/-! ### Linear combinations and rows -/

/-- A linear combination: pairs of a wire and its coefficient. -/
structure LinearCombination (F : Type*) where
  terms : List (Var × F)
  deriving DecidableEq

/-- The equation `a · b = c`. -/
structure Constraint (F : Type*) where
  a : LinearCombination F
  b : LinearCombination F
  c : LinearCombination F
  deriving DecidableEq

/-- Values of all wires of a board. -/
structure Assignment (F : Type*) [One F] where
  val : Var → F
  val_ONE : val ONE = 1

namespace Assignment

variable [One F]

instance : CoeFun (Assignment F) fun _ => Var → F := ⟨val⟩

@[ext] theorem ext {σ τ : Assignment F} (h : ∀ v, σ v = τ v) : σ = τ := by
  obtain ⟨f, hf⟩ := σ
  obtain ⟨g, hg⟩ := τ
  obtain rfl : f = g := funext h
  rfl

/-- All wires but the constant one carry zero. -/
def blank [Zero F] : Assignment F where
  val w := if w = ONE then 1 else 0
  val_ONE := if_pos rfl

/-- Write one wire; the constant wire cannot be written. -/
def set (σ : Assignment F) (v : Var) (x : F) : Assignment F where
  val w := if w = v ∧ v ≠ ONE then x else σ w
  val_ONE := by
    rw [if_neg (by rintro ⟨rfl, h⟩; exact h rfl), σ.val_ONE]

theorem set_of_ne (σ : Assignment F) {v w : Var} (x : F) (h : w ≠ v) : σ.set v x w = σ w :=
  if_neg fun hw => h hw.1

theorem set_self (σ : Assignment F) {v : Var} (x : F) (h : v ≠ ONE) : σ.set v x v = x :=
  if_pos ⟨rfl, h⟩

/-- Forget the values of all wires from index `start` on. -/
def clearFrom [Zero F] (σ : Assignment F) (start : ℕ) : Assignment F where
  val w := if start ≤ w ∧ w ≠ ONE then 0 else σ w
  val_ONE := by
    rw [if_neg fun h => h.2 rfl, σ.val_ONE]

theorem clearFrom_of_lt [Zero F] (σ : Assignment F) {start : ℕ} {w : Var} (h : w < start) :
    σ.clearFrom start w = σ w :=
  if_neg fun hw => absurd hw.1 (not_le.mpr h)

theorem clearFrom_of_le [Zero F] (σ : Assignment F) {start : ℕ} {w : Var} (hstart : 0 < start)
    (h : start ≤ w) : σ.clearFrom start w = 0 :=
  if_pos ⟨h, (hstart.trans_le h).ne'⟩

/-- Write an array of wires, in order. -/
def fill (σ : Assignment F) : List Var → List F → Assignment F
  | v :: vs, x :: xs => (σ.set v x).fill vs xs
  | _, _ => σ

theorem fill_of_notMem (σ : Assignment F) {w : Var} (vs : List Var) (xs : List F) (h : w ∉ vs) :
    σ.fill vs xs w = σ w := by
  induction vs generalizing σ xs with
  | nil => cases xs <;> rfl
  | cons v vs ih =>
    cases xs with
    | nil => rfl
    | cons x xs =>
      rw [mem_cons, not_or] at h
      rw [fill, ih _ _ h.2, set_of_ne _ _ h.1]

/-- Distinct wires read back what was written. -/
theorem map_fill (σ : Assignment F) (vs : List Var) (xs : List F) (hnodup : vs.Nodup)
    (hone : ONE ∉ vs) (hlen : vs.length = xs.length) : vs.map (σ.fill vs xs) = xs := by
  induction vs generalizing σ xs with
  | nil =>
    cases xs with
    | nil => rfl
    | cons x xs => cases hlen
  | cons v vs ih =>
    cases xs with
    | nil => cases hlen
    | cons x xs =>
      obtain ⟨hv, hvs⟩ := nodup_cons.mp hnodup
      rw [mem_cons, not_or] at hone
      have htail := ih (σ.set v x) xs hvs hone.2 (Nat.succ.inj hlen)
      have hhead : (σ.set v x).fill vs xs v = x := by
        rw [fill_of_notMem _ _ _ hv, set_self _ _ (Ne.symm hone.1)]
      rw [map_cons, fill, htail, hhead]

end Assignment

namespace LinearCombination

/-- The value of a linear combination. -/
def eval [Semiring F] (σ : Assignment F) (l : LinearCombination F) : F :=
  (l.terms.map fun t => t.2 * σ t.1).sum

/-- A single wire. -/
def var [One F] (v : Var) : LinearCombination F := ⟨[(v, 1)]⟩

/-- A constant, carried by the constant wire. -/
def const (x : F) : LinearCombination F := ⟨[(ONE, x)]⟩

instance : Zero (LinearCombination F) := ⟨⟨[]⟩⟩

instance : Add (LinearCombination F) := ⟨fun l m => ⟨l.terms ++ m.terms⟩⟩

instance [Mul F] : SMul F (LinearCombination F) :=
  ⟨fun x l => ⟨l.terms.map fun t => (t.1, x * t.2)⟩⟩

instance [Neg F] : Neg (LinearCombination F) := ⟨fun l => ⟨l.terms.map fun t => (t.1, -t.2)⟩⟩

instance [Neg F] : Sub (LinearCombination F) := ⟨fun l m => l + -m⟩

@[simp] theorem terms_zero : (0 : LinearCombination F).terms = [] := rfl

@[simp] theorem terms_sub [Neg F] (l m : LinearCombination F) :
    (l - m).terms = l.terms ++ m.terms.map fun t => (t.1, -t.2) := rfl

section Eval

variable [Ring F] (σ : Assignment F) (l m : LinearCombination F)

@[simp] theorem eval_var (v : Var) : (var v : LinearCombination F).eval σ = σ v := by
  simp [eval, var]

@[simp] theorem eval_const (x : F) : (const x).eval σ = x := by
  simp [eval, const, σ.val_ONE]

@[simp] theorem eval_zero : (0 : LinearCombination F).eval σ = 0 := rfl

@[simp] theorem eval_add : (l + m).eval σ = l.eval σ + m.eval σ := by
  change ((l.terms ++ m.terms).map _).sum = _
  rw [map_append, sum_append]
  rfl

@[simp] theorem eval_smul (x : F) : (x • l).eval σ = x * l.eval σ := by
  change ((l.terms.map fun t => (t.1, x * t.2)).map _).sum = _
  rw [map_map, eval, ← sum_map_mul_left]
  simp only [Function.comp_def, mul_assoc]

@[simp] theorem eval_neg : (-l).eval σ = -l.eval σ := by
  change ((l.terms.map fun t => (t.1, -t.2)).map _).sum = _
  rw [map_map, eval, neg_eq_neg_one_mul, ← sum_map_mul_left]
  simp only [Function.comp_def, neg_mul, one_mul]

@[simp] theorem eval_sub : (l - m).eval σ = l.eval σ - m.eval σ := by
  change (l + -m).eval σ = _
  rw [eval_add, eval_neg, sub_eq_add_neg]

end Eval

/-- The wires that occur. -/
def vars (l : LinearCombination F) : List Var := l.terms.map Prod.fst

theorem eval_congr [Semiring F] {σ τ : Assignment F} (l : LinearCombination F)
    (h : ∀ v ∈ l.vars, σ v = τ v) : l.eval σ = l.eval τ := by
  refine congrArg List.sum (map_congr_left fun t ht => ?_)
  rw [h t.1 (mem_map_of_mem ht)]

end LinearCombination

/-! ### Satisfaction -/

/-- The equation holds under an assignment. -/
def Constraint.Holds [Semiring F] (σ : Assignment F) (k : Constraint F) : Prop :=
  k.a.eval σ * k.b.eval σ = k.c.eval σ

instance [Semiring F] [DecidableEq F] (σ : Assignment F) (k : Constraint F) :
    Decidable (k.Holds σ) :=
  inferInstanceAs (Decidable (_ = _))

/-- The wires that occur in a row. -/
def Constraint.vars (k : Constraint F) : List Var := k.a.vars ++ k.b.vars ++ k.c.vars

/-- Every row of a list holds. -/
def Satisfies [Semiring F] (σ : Assignment F) (ks : List (Constraint F)) : Prop :=
  ∀ k ∈ ks, k.Holds σ

instance [Semiring F] [DecidableEq F] (σ : Assignment F) (ks : List (Constraint F)) :
    Decidable (Satisfies σ ks) :=
  inferInstanceAs (Decidable (∀ k ∈ ks, _))

section Satisfies

variable [Semiring F] {σ τ : Assignment F}

@[simp] theorem satisfies_nil : Satisfies σ ([] : List (Constraint F)) := by
  intro k hk
  cases hk

@[simp] theorem satisfies_cons {k : Constraint F} {ks : List (Constraint F)} :
    Satisfies σ (k :: ks) ↔ k.Holds σ ∧ Satisfies σ ks :=
  forall_mem_cons

@[simp] theorem satisfies_append {ks ls : List (Constraint F)} :
    Satisfies σ (ks ++ ls) ↔ Satisfies σ ks ∧ Satisfies σ ls :=
  forall_mem_append

@[simp] theorem satisfies_map {α : Type*} {f : α → Constraint F} {l : List α} :
    Satisfies σ (l.map f) ↔ ∀ x ∈ l, (f x).Holds σ :=
  forall_mem_map

@[simp] theorem satisfies_flatMap {α : Type*} {f : α → List (Constraint F)} {l : List α} :
    Satisfies σ (l.flatMap f) ↔ ∀ x ∈ l, Satisfies σ (f x) := by
  constructor
  · intro h x hx k hk
    exact h k (mem_flatMap.mpr ⟨x, hx, hk⟩)
  · intro h k hk
    obtain ⟨x, hx, hkx⟩ := mem_flatMap.mp hk
    exact h x hx k hkx

theorem Constraint.holds_congr {k : Constraint F} (h : ∀ v ∈ k.vars, σ v = τ v) :
    k.Holds σ ↔ k.Holds τ := by
  have ha : k.a.eval σ = k.a.eval τ := k.a.eval_congr fun v hv => h v (by simp [vars, hv])
  have hb : k.b.eval σ = k.b.eval τ := k.b.eval_congr fun v hv => h v (by simp [vars, hv])
  have hc : k.c.eval σ = k.c.eval τ := k.c.eval_congr fun v hv => h v (by simp [vars, hv])
  rw [Holds, Holds, ha, hb, hc]

/-- Satisfaction reads only the wires that occur. -/
theorem satisfies_congr {ks : List (Constraint F)}
    (h : ∀ k ∈ ks, ∀ v ∈ k.vars, σ v = τ v) : Satisfies σ ks ↔ Satisfies τ ks :=
  forall₂_congr fun k hk => Constraint.holds_congr (h k hk)

end Satisfies

/-! ### Allocation -/

/-- Computations that allocate wires: the state is the next free index. -/
abbrev Alloc := StateM ℕ

/-- A fresh wire. -/
def allocate : Alloc Var := fun next => (next, next + 1)

/-- An array of fresh wires. -/
def allocateArray (n : ℕ) : Alloc (List.Vector Var n) := fun next =>
  (⟨List.range' next n, length_range'⟩, next + n)

/-- Distinct wires allocated before index `start`. -/
structure Allocated (start : ℕ) (vs : List Var) : Prop where
  nodup : vs.Nodup
  pos : ∀ v ∈ vs, 0 < v
  lt : ∀ v ∈ vs, v < start

namespace Allocated

variable {start : ℕ} {vs ws : List Var}

theorem nil (start : ℕ) : Allocated start [] where
  nodup := nodup_nil
  pos _ hv := absurd hv not_mem_nil
  lt _ hv := absurd hv not_mem_nil

theorem one_notMem (h : Allocated start vs) : ONE ∉ vs := fun hv => (h.pos ONE hv).false

theorem sublist (h : Allocated start vs) (hsub : ws.Sublist vs) : Allocated start ws where
  nodup := h.nodup.sublist hsub
  pos v hv := h.pos v (hsub.subset hv)
  lt v hv := h.lt v (hsub.subset hv)

theorem mono (h : Allocated start vs) {next : ℕ} (hle : start ≤ next) : Allocated next vs where
  nodup := h.nodup
  pos := h.pos
  lt v hv := (h.lt v hv).trans_le hle

theorem perm (h : Allocated start vs) (hperm : vs.Perm ws) : Allocated start ws where
  nodup := hperm.nodup_iff.mp h.nodup
  pos v hv := h.pos v (hperm.mem_iff.mpr hv)
  lt v hv := h.lt v (hperm.mem_iff.mpr hv)

/-- Wires stay allocated, together with those of a fresh array. -/
theorem append_range' (h : Allocated start vs) (hstart : 0 < start) (n : ℕ) :
    Allocated (start + n) (vs ++ List.range' start n) where
  nodup := by
    rw [nodup_append]
    refine ⟨h.nodup, nodup_range', fun v hv w hw => ?_⟩
    rintro rfl
    exact absurd (h.lt v hv) (not_lt.mpr (mem_range'_1.mp hw).1)
  pos v hv := by
    rcases mem_append.mp hv with hv | hv
    · exact h.pos v hv
    · exact hstart.trans_le (mem_range'_1.mp hv).1
  lt v hv := by
    rcases mem_append.mp hv with hv | hv
    · exact (h.lt v hv).trans_le (Nat.le_add_right start n)
    · exact (mem_range'_1.mp hv).2

end Allocated

namespace Alloc

variable {α β : Type}

theorem bind_apply (x : Alloc α) (f : α → Alloc β) (next : ℕ) :
    (x >>= f) next = f (x next).1 (x next).2 := rfl

/-- The rest of a computation, from where its first part ends. -/
theorem bind_of_next {x : Alloc α} {start next : ℕ} (hx : (x start).2 = next) (f : α → Alloc β) :
    (x >>= f) start = f (x start).1 next := by
  rw [bind_apply, hx]

theorem pure_apply (a : α) (next : ℕ) : (pure a : Alloc α) next = (a, next) := rfl

/-- Run the body for every index below `n`, in order. -/
def forEach : (n : ℕ) → (Fin n → Alloc α) → Alloc (List.Vector α n)
  | 0, _ => pure List.Vector.nil
  | n + 1, f => do
    let x ← f 0
    let xs ← forEach n fun i => f i.succ
    return x ::ᵥ xs

/-- Every result of the loop comes from a run of its body, started no earlier than the loop. -/
theorem forEach_get {n : ℕ} (f : Fin n → Alloc α) (hf : ∀ i s, s ≤ (f i s).2) (next : ℕ)
    (i : Fin n) : ∃ s, next ≤ s ∧ (forEach n f next).1.get i = (f i s).1 := by
  induction n generalizing next with
  | zero => exact i.elim0
  | succ n ih =>
    refine Fin.cases ?_ (fun j => ?_) i
    · exact ⟨next, le_rfl, rfl⟩
    · obtain ⟨s, hle, hs⟩ := ih (fun j => f j.succ) (fun j => hf j.succ) (f 0 next).2 j
      exact ⟨s, (hf 0 next).trans hle, hs⟩

/-- A loop whose body takes the same number of wires each time. -/
theorem forEach_const {n c : ℕ} (f : Fin n → Alloc α) (hf : ∀ i s, (f i s).2 = s + c) (next : ℕ) :
    (forEach n f next).2 = next + n * c ∧
      ∀ i : Fin n, (forEach n f next).1.get i = (f i (next + i * c)).1 := by
  induction n generalizing next with
  | zero => exact ⟨(congrArg (next + ·) (Nat.zero_mul c)).symm, fun i => i.elim0⟩
  | succ n ih =>
    obtain ⟨hnext, hget⟩ := ih (fun i => f i.succ) (fun i => hf i.succ) (f 0 next).2
    refine ⟨hnext.trans ?_, Fin.cases ?_ fun i => ?_⟩
    · rw [hf]
      ring
    · exact congrArg (fun s => (f 0 s).1) (by rw [Fin.val_zero, Nat.zero_mul, Nat.add_zero])
    · refine (hget i).trans (congrArg (fun s => (f i.succ s).1) ?_)
      rw [hf, Fin.val_succ]
      ring

/-- Run from index `start` or later, the computation frees no wire and its result has the
property. -/
def From (start : ℕ) (x : Alloc α) (P : α → Prop) : Prop :=
  ∀ next, start ≤ next → P (x next).1 ∧ next ≤ (x next).2

namespace From

variable {start : ℕ} {P : α → Prop} {Q : β → Prop}

theorem pure {a : α} (h : P a) : From start (Pure.pure a : Alloc α) P :=
  fun next _ => ⟨h, le_refl next⟩

theorem bind {x : Alloc α} {f : α → Alloc β} (hx : From start x P)
    (hf : ∀ a, P a → From start (f a) Q) : From start (x >>= f) Q := by
  intro next hnext
  obtain ⟨hP, hle⟩ := hx next hnext
  obtain ⟨hQ, hle'⟩ := hf _ hP (x next).2 (hnext.trans hle)
  exact ⟨hQ, hle.trans hle'⟩

/-- A fresh array lies past the start. -/
theorem allocateArray (n : ℕ) :
    From start (R1CS.allocateArray n) fun vs => ∀ v ∈ vs.toList, start ≤ v := by
  intro next hnext
  refine ⟨fun v hv => ?_, Nat.le_add_right next n⟩
  exact hnext.trans (mem_range'_1.mp hv).1

/-- A loop gives each of its results the property of its body. -/
theorem forEach {n : ℕ} {f : Fin n → Alloc α} {P : Fin n → α → Prop}
    (hf : ∀ i, From start (f i) (P i)) :
    From start (Alloc.forEach n f) fun xs => ∀ i, P i (xs.get i) := by
  induction n with
  | zero => exact pure fun i => i.elim0
  | succ n ih =>
    refine bind (hf 0) fun x hx => bind (ih fun i => hf i.succ) fun xs hxs => pure fun i => ?_
    exact Fin.cases hx hxs i

end From

end Alloc

end R1CS
