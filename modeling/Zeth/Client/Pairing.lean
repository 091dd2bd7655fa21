import Zeth.Foundation.Python

/-!
# Group elements as hexadecimal strings and as words

`client/zeth/core/pairing.py`, with the conversions of hexadecimal strings of
`client/zeth/core/utils.py` that it uses. The prover server sends the coordinates of group elements
as hexadecimal strings, a coordinate in an extension field as the list of its coefficients. For a
contract, strings are split into words of 256 bits.

Field elements are negated by `mod - value % mod`, which is not reduced: the negation of zero is
written as the modulus (`fieldElementNegate_hex`).

## Main definitions

* `intBase16`, `intAndBytelenFromHex`, `intToHex`, `hexToUint256List`, `hexListToUint256List`.
* `G1Point`, `G2Point`, `g1PointToContractParameters`, `g2PointToContractParameters`.
* `fieldElementNegate`, `g2PointNegate`.

## Main results

* `hexToUint256List_hex`: a string of 32 bytes is one word.
* `fieldElementNegate_hex`.
-/

namespace Zeth.Client

open ByteString Python

/-! ### Hexadecimal strings -/

/-- The digits of a hexadecimal string, without the `0x` it may start with. -/
def hexDigits (s : String) : List Char :=
  if s.toList.take 2 = ['0', 'x'] then s.toList.drop 2 else s.toList

/-- `int(s, 16)`, for strings with or without `0x`. -/
def intBase16 (s : String) : Except Exc ℕ := intHex (String.ofList (hexDigits s))

/-- `int_and_bytelen_from_hex`. -/
def intAndBytelenFromHex (valueHex : String) : Except Exc (ℕ × ℕ) := do
  assert (valueHex.length % 2 == 0) ""
  let value ← intBase16 valueHex
  return (value, (hexDigits valueHex).length / 2)

/-- `int_to_hex`. -/
def intToHex (value numBytes : ℕ) : Except Exc String := do
  let bytes ← toBytesBig numBytes value
  return "0x" ++ hex bytes

/-- The loop of `hex_to_uint256_list`, with its two indices. -/
def hexWords (digits : List Char) (startIdx nextIdx : ℕ) : Except Exc (List ℕ) :=
  if nextIdx ≤ digits.length then do
    let word ← intBase16 (String.ofList ((digits.drop startIdx).take (nextIdx - startIdx)))
    let words ← hexWords digits nextIdx (nextIdx + 64)
    return word :: words
  else return []
termination_by digits.length + 1 - nextIdx

/-- `hex_to_uint256_list`. Python divides the length as a double, which is exact below `2 ^ 53`. -/
def hexToUint256List (hexStr : String) : Except Exc (List ℕ) := do
  let digits := hexDigits hexStr
  assert (digits.length % 2 == 0) ""
  hexWords digits 0 (digits.length - (digits.length - 1) / 64 * 64)

/-- `hex_list_to_uint256_list`, on a list of strings. -/
def hexListToUint256List (elements : List String) : Except Exc (List ℕ) := do
  let words ← elements.mapM hexToUint256List
  return words.flatten

theorem hexDigits_hex (bs : Bytes) : hexDigits (hex bs) = hexChars bs := by
  have hx : ∀ n < 16, hexDigit n ≠ 'x' := by
    intro n hn h
    have hval := (hexVal_hexDigit hn).1
    rw [h] at hval
    cases hval
  rw [hexDigits, hex, String.toList_ofList, if_neg]
  rcases bs with _ | ⟨b, bs⟩
  · intro h
    cases h
  · have hb : b.toNat % 16 < 16 := Nat.mod_lt _ (by decide)
    simp [hexChars, hx _ hb]

theorem hexDigits_append_hex (bs : Bytes) : hexDigits ("0x" ++ hex bs) = hexChars bs := by
  have htoList : ("0x" ++ hex bs).toList = '0' :: 'x' :: hexChars bs := by
    simp [hex]
  rw [hexDigits, htoList]
  rfl

theorem intBase16_hex {bs : Bytes} (hbs : bs ≠ []) : intBase16 (hex bs) = .ok (fromBig bs) := by
  rw [intBase16, hexDigits_hex, ← hex, intHex_hex hbs]

theorem intBase16_append_hex {bs : Bytes} (hbs : bs ≠ []) :
    intBase16 ("0x" ++ hex bs) = .ok (fromBig bs) := by
  rw [intBase16, hexDigits_append_hex, ← hex, intHex_hex hbs]

/-- A string of 32 bytes is one word. -/
theorem hexToUint256List_hex {bs : Bytes} (hbs : bs.length = 32) :
    hexToUint256List ("0x" ++ hex bs) = .ok [fromBig bs] := by
  have hne : bs ≠ [] := List.ne_nil_of_length_pos (by omega)
  have hlen : (hexChars bs).length = 64 := by rw [length_hexChars, hbs]
  have hlast : hexWords (hexChars bs) 64 (64 + 64) = .ok [] := by
    rw [hexWords, if_neg (by omega)]
    rfl
  have hword : hexWords (hexChars bs) 0 64 = .ok [fromBig bs] := by
    rw [hexWords, if_pos hlen.ge, List.drop_zero, List.take_of_length_le hlen.le, ← hex,
      intBase16_hex hne, hlast]
    rfl
  simp only [hexToUint256List, hexDigits_append_hex, hlen]
  exact hword

/-! ### Points -/

/-- `G1Point`. -/
structure G1Point where
  xCoord : String
  yCoord : String

/-- A coordinate of a `G2Point`, in the base field or in an extension. -/
inductive Coordinate where
  | str (element : String)
  | list (elements : List String)

/-- The elements that a loop over the coordinate visits; for a string these are its characters. -/
def Coordinate.elements : Coordinate → List String
  | .str element => element.toList.map fun c => String.ofList [c]
  | .list elements => elements

/-- `G2Point`. -/
structure G2Point where
  xCoord : Coordinate
  yCoord : Coordinate

/-- `g1_point_to_contract_parameters`. -/
def g1PointToContractParameters (g1 : G1Point) : Except Exc (List ℕ) := do
  let x ← hexToUint256List g1.xCoord
  let y ← hexToUint256List g1.yCoord
  return x ++ y

/-- `g2_point_to_contract_parameters`. -/
def g2PointToContractParameters (g2 : G2Point) : Except Exc (List ℕ) :=
  match g2.xCoord, g2.yCoord with
  | .str x, .str y => g1PointToContractParameters ⟨x, y⟩
  | .str _, .list _ => .error (.assertionError "")
  | .list x, y => do
    let x ← hexListToUint256List x
    let y ← hexListToUint256List y.elements
    return x ++ y

/-- `field_element_negate`. -/
def fieldElementNegate (valueHex modHex : String) : Except Exc String := do
  let mod ← intAndBytelenFromHex modHex
  let value ← intBase16 valueHex
  if mod.1 = 0 then .error (.exception "integer division or modulo by zero")
  else intToHex (mod.1 - value % mod.1) mod.2

/-- `g2_point_negate`. Of the pairing parameters it reads the order of the base field, `pp.q`. -/
def g2PointNegate (g2 : G2Point) (ppQ : String) : Except Exc G2Point :=
  match g2.yCoord with
  | .str y => do
    let y ← fieldElementNegate y ppQ
    return ⟨g2.xCoord, .str y⟩
  | .list ys => do
    let ys ← ys.mapM fun y => fieldElementNegate y ppQ
    return ⟨g2.xCoord, .list ys⟩

theorem intAndBytelenFromHex_hex {n x : ℕ} (hx : x < 256 ^ n) (hn : 0 < n) :
    intAndBytelenFromHex (hex (toBig n x)) = .ok (x, n) := by
  have hne : toBig n x ≠ [] := List.ne_nil_of_length_pos (by rwa [length_toBig])
  have hlen : (hexChars (toBig n x)).length = 2 * n := by rw [length_hexChars, length_toBig]
  have hlength : (hex (toBig n x)).length = 2 * n := by rw [hex, String.length_ofList, hlen]
  have heven : (2 * n % 2 == 0) = true := by rw [Nat.mul_mod_right, beq_self_eq_true]
  rw [intAndBytelenFromHex, hlength, heven, assert_true, Except.ok_bind, intBase16_hex hne,
    Except.ok_bind, fromBig_toBig, Nat.mod_eq_of_lt hx, hexDigits_hex, hlen,
    Nat.mul_div_cancel_left n two_pos]
  rfl

/-- A number is negated to `mod - value % mod`, in as many bytes as the modulus has. -/
theorem fieldElementNegate_hex {n mod value : ℕ} (hmod : mod < 256 ^ n) (hpos : 0 < mod)
    (hvalue : value < 256 ^ n) (hn : 0 < n) :
    fieldElementNegate ("0x" ++ hex (toBig n value)) (hex (toBig n mod)) =
      .ok ("0x" ++ hex (toBig n (mod - value % mod))) := by
  have hne : toBig n value ≠ [] := List.ne_nil_of_length_pos (by rwa [length_toBig])
  have hlt : mod - value % mod < 256 ^ n := (Nat.sub_le _ _).trans_lt hmod
  rw [fieldElementNegate, intAndBytelenFromHex_hex hmod hn, Except.ok_bind,
    intBase16_append_hex hne, Except.ok_bind, if_neg hpos.ne', fromBig_toBig,
    Nat.mod_eq_of_lt hvalue, intToHex, toBytesBig, if_pos hlt]
  rfl

end Zeth.Client
