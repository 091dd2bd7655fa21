import Zeth.Client.Wallet

/-!
# Conversions of the client

Amounts of ether and Zeth units, and encodings of fixed width (`client/zeth/core/utils.py`). An
amount is a number of wei; the library `web3` is a parameter, as for the names of note files.

## Main definitions

* `EtherValue`, `toZethUnits`, `fromZethUnits`.
* `int64ToHex`, `extend32Bytes`, `hexExtend32Bytes`.

## Main results

* `intHex_int64ToHex`: a value of 64 bits reads back.
* `hexExtend32Bytes_hex`: strings of 32 bytes are kept.
-/

namespace Zeth.Client

open ByteString Python

/-! ### Amounts -/

/-- `EtherValue`. -/
structure EtherValue where
  wei : ℕ
  deriving DecidableEq, Repr

/-- What `Web3.toWei` returns for an amount of wei is that amount. -/
def Web3.Exact (W : Web3) : Prop := ∀ {amount wei : ℕ}, W.toWei amount = .ok wei → wei = amount

variable (W : Web3)

/-- `EtherValue.__add__`. -/
def EtherValue.add (x y : EtherValue) : Except Exc EtherValue := do
  return ⟨← W.toWei (x.wei + y.wei)⟩

/-- `sum(values, EtherValue(0))`. -/
def EtherValue.sum (values : List EtherValue) : Except Exc EtherValue :=
  values.foldlM (EtherValue.add W) ⟨0⟩

/-- `to_zeth_units`, the quotient taken to be exact. -/
def toZethUnits (value : EtherValue) : ℕ := value.wei / zethPublicUnitValue

/-- `from_zeth_units`. -/
def fromZethUnits (zethUnits : ℕ) : Except Exc EtherValue := do
  return ⟨← W.toWei (zethUnits * zethPublicUnitValue)⟩

variable {W}

theorem EtherValue.wei_of_add (hW : W.Exact) {x y z : EtherValue} (h : x.add W y = .ok z) :
    z.wei = x.wei + y.wei := by
  obtain ⟨wei, hwei, hz⟩ := Except.bind_eq_ok.mp h
  cases hz
  exact hW hwei

theorem EtherValue.wei_of_foldlM_add (hW : W.Exact) {values : List EtherValue}
    {start total : EtherValue} (h : values.foldlM (EtherValue.add W) start = .ok total) :
    total.wei = start.wei + (values.map wei).sum := by
  induction values generalizing start with
  | nil =>
    cases h
    rfl
  | cons value values ih =>
    rw [List.foldlM_cons] at h
    obtain ⟨next, hnext, h⟩ := Except.bind_eq_ok.mp h
    rw [ih h, wei_of_add hW hnext, List.map_cons, List.sum_cons, Nat.add_assoc]

theorem EtherValue.wei_of_sum (hW : W.Exact) {values : List EtherValue} {total : EtherValue}
    (h : EtherValue.sum W values = .ok total) : total.wei = (values.map wei).sum :=
  (wei_of_foldlM_add hW h).trans (Nat.zero_add _)

theorem wei_of_fromZethUnits (hW : W.Exact) {zethUnits : ℕ} {value : EtherValue}
    (h : fromZethUnits W zethUnits = .ok value) : value.wei = zethUnits * zethPublicUnitValue := by
  obtain ⟨wei, hwei, hvalue⟩ := Except.bind_eq_ok.mp h
  cases hvalue
  exact hW hwei

/-! ### Encodings -/

/-- `int64_to_hex`. -/
def int64ToHex (number : ℕ) : Except Exc String := do
  return hex (← toBytesBig 8 number)

/-- `extend_32bytes`. -/
def extend32Bytes (value : Bytes) : Except Exc Bytes := do
  assert (value.length ≤ 32) ""
  return List.replicate (32 - value.length) 0 ++ value

/-- `hex_extend_32bytes`. -/
def hexExtend32Bytes (element : String) : Except Exc String := do
  let res := if element.length % 2 ≠ 0 then "0" ++ element else element
  return hex (← extend32Bytes (← fromhex res))

/-- `ownership_key_as_hex`. -/
def ownershipKeyAsHex (key : Bytes) : Except Exc String := hexExtend32Bytes (hex key)

theorem int64ToHex_eq {number : ℕ} (h : number < 2 ^ 64) :
    int64ToHex number = .ok (hex (toBig 8 number)) := by
  rw [int64ToHex, toBytesBig, if_pos (h.trans_eq (by norm_num)), Except.ok_bind]
  rfl

/-- A string of `int64_to_hex` reads as its number. -/
theorem intHex_int64ToHex {number : ℕ} {s : String} (h : int64ToHex number = .ok s) :
    intHex s = .ok number := by
  obtain ⟨bs, hbs, hs⟩ := Except.bind_eq_ok.mp h
  cases hs
  rw [toBytesBig] at hbs
  split_ifs at hbs with hlt
  cases hbs
  have hne : toBig 8 number ≠ [] := List.ne_nil_of_length_pos (by rw [length_toBig]; norm_num)
  rw [intHex_hex hne, fromBig_toBig, Nat.mod_eq_of_lt hlt]

theorem extend32Bytes_eq {value : Bytes} (h : value.length ≤ 32) :
    extend32Bytes value = .ok (List.replicate (32 - value.length) 0 ++ value) := by
  rw [extend32Bytes, assert_decide h, Except.ok_bind]
  rfl

theorem hexExtend32Bytes_hex {bs : Bytes} (h : bs.length = 32) :
    hexExtend32Bytes (hex bs) = .ok (hex bs) := by
  have heven : (hex bs).length % 2 = 0 := by
    rw [length_hex]
    exact Nat.mul_mod_right 2 _
  rw [hexExtend32Bytes, if_neg (not_not.mpr heven), fromhex_hex, Except.ok_bind,
    extend32Bytes_eq h.le, h]
  rfl

end Zeth.Client
