import Mathlib.Algebra.GroupWithZero.Nat
import Mathlib.Data.Nat.Init

/-!
# Small numerals

A numeral of a ring or of `Fin n` carries a proof that it is large enough. The proofs for the
numerals of this development have names, so that a numeral is one term in all modules.
-/

namespace Numerals

instance atLeastTwo_two : Nat.AtLeastTwo 2 := ⟨by decide⟩

instance atLeastTwo_three : Nat.AtLeastTwo 3 := ⟨by decide⟩

instance atLeastTwo_five : Nat.AtLeastTwo 5 := ⟨by decide⟩

instance neZero_two : NeZero 2 := ⟨by decide⟩

instance neZero_four : NeZero 4 := ⟨by decide⟩

end Numerals
