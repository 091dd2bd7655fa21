import Zeth.Circuit.Gadgetlib

/-!
# Operations on words of bits in the circuit

The gadgets of `binary_operation`: the exclusive or of two arrays, with and without a rotation of
the result, and the sum of two 32-bit words modulo `2 ^ 32`.

## Main definitions

* `Zeth.Circuit.XorGadget`, `Zeth.Circuit.XorRotGadget`, `Zeth.Circuit.DoubleBit32SumEqGadget`.

## Main results

* `Zeth.Circuit.XorGadget.satisfies_iff`, `Zeth.Circuit.XorRotGadget.satisfies_iff`,
  `Zeth.Circuit.DoubleBit32SumEqGadget.satisfies_iff`: what the rows of each gadget say.
-/

namespace Zeth.Circuit

open R1CS LinearCombination

variable {F : Type} [Field F]

/-- The row `(2a) · b = a + b − res`. -/
def xorRow (a b res : Var) : Constraint F :=
  ⟨(2 : F) • .var a, .var b, .var a + .var b - .var res⟩

theorem xorRow_holds {σ : Assignment F} {a b res : Var} :
    (xorRow a b res : Constraint F).Holds σ ↔ 2 * σ a * σ b = σ a + σ b - σ res := by
  rw [xorRow, Constraint.Holds, eval_smul, eval_sub,
    eval_add, eval_var, eval_var,
    eval_var]

/-! ### Exclusive or -/

/-- `xor_gadget` -/
structure XorGadget (n : ℕ) where
  a : List.Vector Var n
  b : List.Vector Var n
  res : List.Vector Var n

variable (F) in
def XorGadget.constraints {n : ℕ} (g : XorGadget n) : List (Constraint F) :=
  (List.finRange n).map fun i => xorRow (g.a.get i) (g.b.get i) (g.res.get i)

theorem XorGadget.satisfies_iff {n : ℕ} {σ : Assignment F} {g : XorGadget n} :
    Satisfies σ (g.constraints F) ↔ ∀ i, 2 * σ (g.a.get i) * σ (g.b.get i) =
      σ (g.a.get i) + σ (g.b.get i) - σ (g.res.get i) := by
  rw [constraints, satisfies_map]
  exact forall_congr' fun i => by rw [imp_iff_right (List.mem_finRange i), xorRow_holds]

/-- `xor_rot_gadget`: the result is rotated by `shift` positions. -/
structure XorRotGadget (n : ℕ) where
  a : List.Vector Var n
  b : List.Vector Var n
  shift : ℕ
  res : List.Vector Var n

namespace XorRotGadget

variable {n : ℕ}

/-- The position of the result that bit `i` goes to. -/
def target (shift : ℕ) (i : Fin n) : Fin n := ⟨(i + shift) % n, Nat.mod_lt _ i.pos⟩

variable (F) in
def constraints (g : XorRotGadget n) : List (Constraint F) :=
  (List.finRange n).map fun i =>
    xorRow (g.a.get i) (g.b.get i) (g.res.get (target g.shift i))

theorem satisfies_iff {σ : Assignment F} {g : XorRotGadget n} :
    Satisfies σ (g.constraints F) ↔ ∀ i, 2 * σ (g.a.get i) * σ (g.b.get i) =
      σ (g.a.get i) + σ (g.b.get i) - σ (g.res.get (target g.shift i)) := by
  rw [constraints, satisfies_map]
  exact forall_congr' fun i => by rw [imp_iff_right (List.mem_finRange i), xorRow_holds]

end XorRotGadget

/-! ### Sums of words -/

/-- `double_bit32_sum_eq_gadget` -/
structure DoubleBit32SumEqGadget where
  a : List.Vector Var 32
  b : List.Vector Var 32
  res : List.Vector Var 32

namespace DoubleBit32SumEqGadget

variable (L : Gadgetlib F)

/-- The packed sum of the operands minus the packed result. -/
def carry (g : DoubleBit32SumEqGadget) : LinearCombination F :=
  L.packedAddition g.a.toList + L.packedAddition g.b.toList - L.packedAddition g.res.toList

def constraints (g : DoubleBit32SumEqGadget) (enforceBoolean : Bool) : List (Constraint F) :=
  (if enforceBoolean then L.booleans g.res.toList else []) ++
    [⟨g.carry L, g.carry L - .const (2 ^ 32), 0⟩]

/-- The result is the sum of the operands, or falls short of it by `2 ^ 32`. -/
theorem satisfies_iff {σ : Assignment F} {g : DoubleBit32SumEqGadget} {enforceBoolean : Bool} :
    Satisfies σ (g.constraints L enforceBoolean) ↔
      (enforceBoolean = true → ∀ v ∈ g.res.toList, IsBool (σ v)) ∧
        ((g.carry L).eval σ = 0 ∨ (g.carry L).eval σ = 2 ^ 32) := by
  have hrow : Satisfies σ [(⟨g.carry L, g.carry L - .const (2 ^ 32), 0⟩ : Constraint F)] ↔
      (g.carry L).eval σ = 0 ∨ (g.carry L).eval σ = 2 ^ 32 := by
    rw [satisfies_cons, Constraint.Holds, eval_sub,
      eval_const, eval_zero, mul_eq_zero, sub_eq_zero]
    exact and_iff_left satisfies_nil
  rw [constraints, satisfies_append, hrow]
  cases enforceBoolean with
  | false => simp
  | true => simp [L.satisfies_booleans]

end DoubleBit32SumEqGadget

end Zeth.Circuit
