import Mathlib.Data.Nat.Digits.Lemmas
import Mathlib.Data.Nat.Log
import Mathlib.Logic.Function.Basic
import Mathlib.Tactic.IntervalCases
import Mathlib.Tactic.Linarith
import Mathlib.Tactic.NormNum
import Mathlib.Tactic.Ring
import Zeth.Foundation.Bytes
import Zeth.Foundation.Except

/-!
# Exceptions, byte strings and numbers of Python

The parts of Python's data model used by client code: the exceptions it raises, indexing of lists,
the hexadecimal form of byte strings (`bytes.hex`, `bytes.fromhex`), the conversion between byte
strings and integers, and the true division of integers.

`n / 2` on integers is a floating point number, the double nearest to the quotient, so `int(n / 2)`
is the half of `n` rounded down only while the quotient is exact to within the 53 bits of a double,
and it raises when the quotient is too large for one (`Python.intHalf`).

## Main definitions

* `Python.Exc`, `Python.assert`, `Python.index`, `Python.setItem`.
* `Python.hex`, `Python.fromhex`, `Python.toBytesBig`, `Python.intHex`, `Python.dictSet`.
* `Python.encode`, `Python.decode`, `Python.format04X`.
* `Python.intHalf`, `Python.intLog2`, `Python.intPow2`.

## Main results

* `Python.fromhex_hex`, `Python.intHex_hex`, `Python.fromhex_format04X`: hexadecimal strings read
  back.
* `Python.decode_eq_ok`: a byte string decodes to the text that encodes to it.
* `Python.intHalf_eq_div`, `Python.intHalf_two_pow`, `Python.intHalf_two_pow_overflow`.
-/

namespace Python

open ByteString List

/-! ### Exceptions and lists -/

/-- The exceptions that client code raises. -/
inductive Exc where
  | assertionError (message : String)
  | valueError (message : String)
  | indexError (message : String)
  | keyError (key : String)
  | overflowError (message : String)
  /-- `cryptography.exceptions.InvalidSignature`. -/
  | invalidSignature
  | exception (message : String)
  deriving DecidableEq, Repr

/-- `assert condition, message`. -/
def assert (condition : Bool) (message : String) : Except Exc Unit :=
  if condition then .ok () else .error (.assertionError message)

@[simp] theorem assert_true (message : String) : assert true message = .ok () := rfl

@[simp] theorem assert_false (message : String) :
    assert false message = .error (.assertionError message) := rfl

theorem assert_decide {p : Prop} [Decidable p] (hp : p) (message : String) :
    assert (decide p) message = .ok () := by
  rw [decide_eq_true hp, assert_true]

/-- `xs[i]`, for an index that is not negative. -/
def index {α : Type*} (xs : List α) (i : ℕ) : Except Exc α :=
  match xs[i]? with
  | some x => .ok x
  | none => .error (.indexError "list index out of range")

/-- `xs[i] = x`, for an index that is not negative. -/
def setItem {α : Type*} (xs : List α) (i : ℕ) (x : α) : Except Exc (List α) :=
  if i < xs.length then .ok (xs.set i x)
  else .error (.indexError "list assignment index out of range")

theorem index_of_getElem? {α : Type*} {xs : List α} {i : ℕ} {x : α} (h : xs[i]? = some x) :
    index xs i = .ok x := by
  rw [index, h]

theorem setItem_of_lt {α : Type*} {xs : List α} {i : ℕ} (h : i < xs.length) (x : α) :
    setItem xs i x = .ok (xs.set i x) :=
  if_pos h

/-- Assigning to an entry of a tabulated list. -/
theorem set_map_range {α : Type*} (f : ℕ → α) (n i : ℕ) (x : α) :
    ((List.range n).map f).set i x = (List.range n).map (Function.update f i x) := by
  refine ext_getElem (by simp) fun j hj hj' => ?_
  rw [getElem_set, getElem_map, getElem_map, getElem_range,
    Function.update_apply]
  by_cases hij : i = j
  · rw [if_pos hij, if_pos hij.symm]
  · rw [if_neg hij, if_neg (Ne.symm hij)]

/-! ### Byte strings -/

/-- The hexadecimal digit of a number below sixteen, in lower case. -/
def hexDigit (n : ℕ) : Char :=
  if n < 10 then Char.ofNat (48 + n) else Char.ofNat (87 + n)

/-- The value of a hexadecimal digit, in either case. -/
def hexVal (c : Char) : Option ℕ :=
  if '0' ≤ c ∧ c ≤ '9' then some (c.toNat - 48)
  else if 'a' ≤ c ∧ c ≤ 'f' then some (c.toNat - 87)
  else if 'A' ≤ c ∧ c ≤ 'F' then some (c.toNat - 55)
  else none

/-- The digits of `bytes.hex()`. -/
def hexChars : Bytes → List Char
  | [] => []
  | b :: bs => hexDigit (b.toNat / 16) :: hexDigit (b.toNat % 16) :: hexChars bs

/-- `bytes.hex()`. -/
def hex (bs : Bytes) : String := String.ofList (hexChars bs)

/-- The ASCII whitespace that `bytes.fromhex` skips between bytes. -/
def isHexSpace (c : Char) : Bool :=
  c == ' ' || c == '\t' || c == '\n' || c == '\r' || c == Char.ofNat 11 || c == Char.ofNat 12

/-- The bytes denoted by a list of hexadecimal digits, whitespace between bytes being skipped. -/
def fromhexChars : List Char → Option Bytes
  | [] => some []
  | [c] => if isHexSpace c then some [] else none
  | c :: c' :: cs =>
    if isHexSpace c then fromhexChars (c' :: cs)
    else
      match hexVal c, hexVal c' with
      | some x, some y => (fromhexChars cs).map fun bs => BitVec.ofNat 8 (16 * x + y) :: bs
      | _, _ => none

/-- `bytes.fromhex(s)`. -/
def fromhex (s : String) : Except Exc Bytes :=
  match fromhexChars s.toList with
  | some bs => .ok bs
  | none => .error (.valueError "non-hexadecimal number found in fromhex() arg")

theorem hexVal_hexDigit {n : ℕ} (hn : n < 16) :
    hexVal (hexDigit n) = some n ∧ isHexSpace (hexDigit n) = false := by
  interval_cases n <;> decide

theorem length_hexChars (bs : Bytes) : (hexChars bs).length = 2 * bs.length := by
  induction bs with
  | nil => rfl
  | cons b bs ih =>
    rw [hexChars, length_cons, length_cons, ih, length_cons]
    omega

theorem length_hex (bs : Bytes) : (hex bs).length = 2 * bs.length := by
  rw [← String.length_toList, hex, String.toList_ofList, length_hexChars]

theorem fromhexChars_hexChars (bs : Bytes) : fromhexChars (hexChars bs) = some bs := by
  induction bs with
  | nil => rfl
  | cons b bs ih =>
    have hb : b.toNat < 256 := b.isLt
    have hhi := hexVal_hexDigit (n := b.toNat / 16) (by omega)
    have hlo := hexVal_hexDigit (n := b.toNat % 16) (by omega)
    have hval : 16 * (b.toNat / 16) + b.toNat % 16 = b.toNat := Nat.div_add_mod _ _
    simp [hexChars, fromhexChars, hhi, hlo, ih, hval]

/-- A hexadecimal string reads back as the bytes it was written from. -/
@[simp] theorem fromhex_hex (bs : Bytes) : fromhex (hex bs) = .ok bs := by
  simp [fromhex, hex, fromhexChars_hexChars]

/-- Lists of hexadecimal strings read back. -/
theorem mapM_fromhex_map_hex (l : List Bytes) : (l.map hex).mapM fromhex = .ok l := by
  rw [Except.mapM_map_eq_ok fromhex_hex, map_id']

/-- `x.to_bytes(n, byteorder="big")`. -/
def toBytesBig (n x : ℕ) : Except Exc Bytes :=
  if x < 256 ^ n then .ok (toBig n x) else .error (.overflowError "int too big to convert")

theorem length_of_toBytesBig {n x : ℕ} {bs : Bytes} (h : toBytesBig n x = .ok bs) :
    bs.length = n := by
  rw [toBytesBig] at h
  split_ifs at h
  rw [← Except.ok.inj h, length_toBig]

/-- `int(s, 16)`, for strings without the sign, the `0x`, the underscores and the surrounding
whitespace that it accepts as well. -/
def intHex (s : String) : Except Exc ℕ :=
  match s.toList with
  | [] => .error (.valueError "invalid literal for int() with base 16: ''")
  | c :: cs =>
    match (c :: cs).foldlM (fun acc d => (hexVal d).map (16 * acc + ·)) 0 with
    | some n => .ok n
    | none => .error (.valueError ("invalid literal for int() with base 16: '" ++ s ++ "'"))

private theorem foldlM_hexChars (bs : Bytes) (acc : ℕ) :
    (hexChars bs).foldlM (fun acc d => (hexVal d).map (16 * acc + ·)) acc =
      some (bs.foldl (fun acc b => 256 * acc + b.toNat) acc) := by
  induction bs generalizing acc with
  | nil => rfl
  | cons b bs ih =>
    have hb : b.toNat < 256 := b.isLt
    have hhi := (hexVal_hexDigit (n := b.toNat / 16) (by omega)).1
    have hlo := (hexVal_hexDigit (n := b.toNat % 16) (by omega)).1
    have hval : 16 * (16 * acc + b.toNat / 16) + b.toNat % 16 = 256 * acc + b.toNat := by omega
    rw [hexChars, foldlM_cons, hhi, Option.map_some, Option.bind_eq_bind, Option.bind_some,
      foldlM_cons, hlo, Option.map_some, Option.bind_eq_bind, Option.bind_some, hval, ih,
      foldl_cons]

/-- The hexadecimal form of a byte string reads as its number. -/
theorem intHex_hex {bs : Bytes} (hbs : bs ≠ []) : intHex (hex bs) = .ok (fromBig bs) := by
  obtain ⟨b, bs, rfl⟩ := exists_cons_of_ne_nil hbs
  have hfold := foldlM_hexChars (b :: bs) 0
  rw [hexChars] at hfold
  rw [intHex, hex, String.toList_ofList, hexChars]
  simp only [hfold]
  rfl

/-! ### Texts -/

/-- `s.encode()`. -/
def encode (s : String) : Bytes := s.toByteArray.data.toList.map UInt8.toBitVec

/-- `bs.decode()`. -/
def decode (bs : Bytes) : Except Exc String :=
  match String.fromUTF8? ⟨(bs.map UInt8.ofBitVec).toArray⟩ with
  | some s => .ok s
  | none => .error (.valueError "'utf-8' codec can't decode bytes")

/-- A byte string decodes to a text if and only if it is its encoding. -/
theorem decode_eq_ok {bs : Bytes} {s : String} : decode bs = .ok s ↔ encode s = bs := by
  have hbytes : encode s = bs ↔ s.toByteArray = ⟨(bs.map UInt8.ofBitVec).toArray⟩ := by
    constructor
    · rintro rfl
      simp [encode, Function.comp_def]
    · intro h
      simp [encode, h, Function.comp_def]
  rw [hbytes, decode, String.fromUTF8?]
  split_ifs with hvalid
  · rw [Except.ok.injEq]
    constructor
    · rintro rfl
      rfl
    · exact fun h => (String.toByteArray_inj.mp h).symm
  · constructor
    · intro h
      cases h
    · intro h
      exact absurd (h ▸ s.isValidUTF8) hvalid

theorem decode_encode (s : String) : decode (encode s) = .ok s := decode_eq_ok.mpr rfl

theorem ascii_of_all {s : String} (h : s.toList.all (fun c => c.toNat < 128) = true) :
    ∀ c ∈ s.toList, c.toNat < 128 :=
  fun c hc => of_decide_eq_true (all_eq_true.mp h c hc)

/-- A text of ASCII characters has one byte for each. -/
theorem length_encode_of_ascii {s : String} (hs : ∀ c ∈ s.toList, c.toNat < 128) :
    (encode s).length = s.length := by
  have hchars (l : List Char) (hl : ∀ c ∈ l, c.toNat < 128) :
      (l.flatMap String.utf8EncodeChar).length = l.length := by
    induction l with
    | nil => rfl
    | cons c l ih =>
      obtain ⟨hc, hl⟩ := forall_mem_cons.mp hl
      have hone : String.utf8EncodeChar c = [UInt8.ofNat c.toNat] := if_pos (Nat.le_of_lt_succ hc)
      rw [flatMap_cons, hone, length_append, ih hl, length_cons, Nat.add_comm]
      rfl
  rw [encode, length_map, Array.length_toList, ← String.utf8Encode_toList, List.utf8Encode,
    ← String.length_toList, ← hchars s.toList hs]
  simp

/-- `int(s)`, of decimal digits. -/
def decimalInt (s : String) : Except Exc ℤ :=
  if s.toList.all Char.isDigit then .ok (Nat.ofDigitChars 10 s.toList 0)
  else .error (.valueError ("invalid literal for int() with base 10: '" ++ s ++ "'"))

theorem decimalInt_toString (n : ℕ) : decimalInt (toString n) = .ok n := by
  have hdigits : (toString n).toList.all Char.isDigit = true := by
    rw [Nat.toString_eq_ofList_toDigits, String.toList_ofList, all_eq_true]
    exact fun c hc => Nat.isDigit_of_mem_toDigits (by norm_num) (by norm_num) hc
  rw [decimalInt, if_pos hdigits, Nat.toString_eq_ofList_toDigits, String.toList_ofList,
    Nat.ofDigitChars_ten_toDigits]

/-! ### Hexadecimal numbers -/

/-- The hexadecimal digit of a number below sixteen, in upper case. -/
def hexDigitUpper (n : ℕ) : Char :=
  if n < 10 then Char.ofNat (48 + n) else Char.ofNat (55 + n)

/-- The digits of `"{0:X}".format(n)`, none for zero. -/
def hexNumberChars (n : ℕ) : List Char := (Nat.digits 16 n).reverse.map hexDigitUpper

/-- `"{0:0>4X}".format(n)`. -/
def format04X (n : ℕ) : String :=
  String.ofList (List.replicate (4 - (hexNumberChars n).length) '0' ++ hexNumberChars n)

theorem hexVal_hexDigitUpper {n : ℕ} (hn : n < 16) :
    hexVal (hexDigitUpper n) = some n ∧ isHexSpace (hexDigitUpper n) = false := by
  interval_cases n <;> decide

/-- The two digits of a byte, in upper case. -/
def byteCharsUpper (b : Byte) : List Char :=
  [hexDigitUpper (b.toNat / 16), hexDigitUpper (b.toNat % 16)]

theorem fromhexChars_byteCharsUpper (bs : Bytes) :
    fromhexChars (bs.flatMap byteCharsUpper) = some bs := by
  induction bs with
  | nil => rfl
  | cons b bs ih =>
    have hb : b.toNat < 256 := b.isLt
    obtain ⟨hhi, hspace⟩ := hexVal_hexDigitUpper (n := b.toNat / 16) (by omega)
    obtain ⟨hlo, -⟩ := hexVal_hexDigitUpper (n := b.toNat % 16) (by omega)
    have hbyte : BitVec.ofNat 8 (16 * (b.toNat / 16) + b.toNat % 16) = b := by
      rw [Nat.div_add_mod, BitVec.ofNat_toNat, BitVec.setWidth_eq]
    rw [flatMap_cons, byteCharsUpper, cons_append, cons_append, nil_append,
      fromhexChars, hspace, if_neg Bool.false_ne_true, hhi, hlo]
    simp only [ih, Option.map_some, hbyte]

/-- A number with `2 * k` digits is written as its bytes. -/
theorem hexNumberChars_eq {k n : ℕ} (hn : (Nat.digits 16 n).length = 2 * k) :
    hexNumberChars n = (toBig k n).flatMap byteCharsUpper := by
  induction k generalizing n with
  | zero => rw [hexNumberChars, eq_nil_of_length_eq_zero hn, toBig]; rfl
  | succ k ih =>
    have hpos : 0 < n := by
      rcases Nat.eq_zero_or_pos n with rfl | hpos
      · rw [Nat.digits_zero] at hn
        exact absurd hn (by simp)
      · exact hpos
    have hdigits : Nat.digits 16 n = n % 16 :: Nat.digits 16 (n / 16) :=
      Nat.digits_def' (by decide) hpos
    have hpos' : 0 < n / 16 := by
      rcases Nat.eq_zero_or_pos (n / 16) with hzero | hpos'
      · rw [hdigits, hzero, Nat.digits_zero, length_singleton] at hn
        omega
      · exact hpos'
    rw [Nat.digits_def' (by decide) hpos', Nat.div_div_eq_div_mul, show 16 * 16 = 256 from rfl]
      at hdigits
    have hrest : (Nat.digits 16 (n / 256)).length = 2 * k := by
      rw [hdigits, length_cons, length_cons] at hn
      omega
    have hbyte : byteCharsUpper (BitVec.ofNat 8 n) =
        [hexDigitUpper (n / 16 % 16), hexDigitUpper (n % 16)] := by
      rw [byteCharsUpper, BitVec.toNat_ofNat, show n % 2 ^ 8 / 16 = n / 16 % 16 by omega,
        show n % 2 ^ 8 % 16 = n % 16 by omega]
    rw [toBig, flatMap_append, flatMap_singleton, hbyte, ← ih hrest, hexNumberChars,
      hexNumberChars, hdigits]
    simp

theorem fromhex_format04X {k n : ℕ} (hk : 2 ≤ k) (hn : (Nat.digits 16 n).length = 2 * k) :
    fromhex (format04X n) = .ok (toBig k n) := by
  have hlen : 4 - (hexNumberChars n).length = 0 := by
    rw [hexNumberChars, length_map, length_reverse, hn]
    omega
  rw [format04X, hlen, replicate_zero, nil_append, fromhex, String.toList_ofList,
    hexNumberChars_eq hn, fromhexChars_byteCharsUpper]

/-- `"%04d" % n`, for a number that is not negative. -/
def format04d (n : ℕ) : String :=
  String.ofList (List.replicate (4 - (toString n).length) '0') ++ toString n

/-- `d[key] = value` on a dictionary in the order of insertion. -/
def dictSet {α β : Type*} [DecidableEq α] (d : List (α × β)) (key : α) (value : β) :
    List (α × β) :=
  if d.any fun p => p.1 = key then d.map fun p => if p.1 = key then (key, value) else p
  else d ++ [(key, value)]

/-! ### True division -/

/-- The quotient of `n` by `m` rounded to the nearest integer, ties to the even one. -/
def roundHalfEven (n m : ℕ) : ℕ :=
  if 2 * (n % m) < m then n / m
  else if m < 2 * (n % m) then n / m + 1
  else if n / m % 2 = 0 then n / m
  else n / m + 1

/-- `int(n / 2)`: the double nearest to the half of `n`, cut to an integer. From `2 ^ 53` on the
doubles are the multiples of a power of two, and from `2 ^ 1024` on there are none. -/
def intHalf (n : ℕ) : Except Exc ℕ :=
  if n < 2 ^ 53 then .ok (n / 2)
  else
    let ulp := 2 ^ (Nat.log2 n - 52)
    let quotient := roundHalfEven n ulp * ulp / 2
    if quotient < 2 ^ 1024 then .ok quotient
    else .error (.overflowError "integer division result too large for a float")

/-- `int(math.log(n, 2))`, for a power of two: what is cut off is right up to `2 ^ 2954`, and it is one
less for some greater ones, which `math.pow` does not reach. -/
def intLog2 (n : ℕ) : ℕ := Nat.log 2 n

/-- `int(math.pow(2, n))`. -/
def intPow2 (n : ℕ) : Except Exc ℕ :=
  if n < 1024 then .ok (2 ^ n) else .error (.overflowError "math range error")

/-- Up to the first integer that is off, `int(n / 2)` is the half rounded down. -/
theorem intHalf_eq_div {n : ℕ} (hn : n ≤ 2 ^ 53 + 2) : intHalf n = .ok (n / 2) := by
  by_cases hlt : n < 2 ^ 53
  · exact if_pos hlt
  · obtain ⟨m, rfl⟩ : ∃ m, n = 2 ^ 53 + m := ⟨n - 2 ^ 53, by omega⟩
    have hm : m < 3 := by omega
    clear hn hlt
    interval_cases m <;> decide +kernel

/-- The next integer is off. -/
example : intHalf (2 ^ 53 + 3) = .ok ((2 ^ 53 + 3) / 2 + 1) := by decide +kernel

private theorem roundHalfEven_two_pow {k : ℕ} (hk : 53 ≤ k) :
    roundHalfEven (2 ^ k) (2 ^ (k - 52)) * 2 ^ (k - 52) / 2 = 2 ^ (k - 1) := by
  have hpow : 2 ^ k = 2 ^ 52 * 2 ^ (k - 52) := by
    rw [← pow_add]
    congr 1
    omega
  have hhalf : 2 ^ k = 2 * 2 ^ (k - 1) := by
    rw [← pow_succ']
    congr 1
    omega
  have hpos : 0 < 2 ^ (k - 52) := by positivity
  have hmod : 2 ^ k % 2 ^ (k - 52) = 0 := by rw [hpow, Nat.mul_mod_left]
  have hdiv : 2 ^ k / 2 ^ (k - 52) = 2 ^ 52 := by rw [hpow, Nat.mul_div_cancel _ hpos]
  rw [roundHalfEven, hmod, if_pos (by simp), hdiv, ← hpow, hhalf,
    Nat.mul_div_cancel_left _ two_pos]

/-- Powers of two are halved exactly as long as the result is a double. -/
theorem intHalf_two_pow {k : ℕ} (h1 : 1 ≤ k) (hk : k ≤ 1024) :
    intHalf (2 ^ k) = .ok (2 ^ (k - 1)) := by
  by_cases hlt : k < 53
  · have hpow : 2 ^ k = 2 * 2 ^ (k - 1) := by
      rw [← pow_succ']
      congr 1
      omega
    rw [intHalf, if_pos (Nat.pow_lt_pow_right one_lt_two hlt), hpow,
      Nat.mul_div_cancel_left _ two_pos]
  · have hge : ¬ 2 ^ k < 2 ^ 53 := not_lt.mpr (Nat.pow_le_pow_right two_pos (by omega))
    have hfin : 2 ^ (k - 1) < 2 ^ 1024 := by
      apply Nat.pow_lt_pow_right one_lt_two
      omega
    rw [intHalf, if_neg hge, Nat.log2_two_pow]
    simp only [roundHalfEven_two_pow (show 53 ≤ k by omega)]
    exact if_pos hfin

/-- The half of a larger power of two is too large for a double. -/
theorem intHalf_two_pow_overflow {k : ℕ} (hk : 1025 ≤ k) :
    intHalf (2 ^ k) =
      .error (.overflowError "integer division result too large for a float") := by
  have hge : ¬ 2 ^ k < 2 ^ 53 := not_lt.mpr (Nat.pow_le_pow_right two_pos (by omega))
  have hinf : ¬ 2 ^ (k - 1) < 2 ^ 1024 := not_lt.mpr (Nat.pow_le_pow_right two_pos (by omega))
  rw [intHalf, if_neg hge, Nat.log2_two_pow]
  simp only [roundHalfEven_two_pow (show 53 ≤ k by omega)]
  exact if_neg hinf

end Python
