import Zeth.Client.Pairing

/-!
# Hexadecimal strings as words

`hex_to_uint256_list` splits the digits of a string into words of 256 bits
(`client/zeth/core/utils.py`). The first word takes the digits that are left over by words of 64
digits, so that the words are the number of the string in base `2 ^ 256`, the most significant word
first. Lists of strings, some of them in lists of their own, are flattened before they are split.

## Main definitions

* `hexNumber`, `wordsNumber`: the numbers of digits and of words.
* `IsHexString`: an even number of digits, at least one, with or without `0x`.
* `stringListFlatten`, `hexListToUint256ListNested`.

## Main results

* `hexToUint256List_spec`: the words of a string.
* `hexToUint256List_isPositional`.
-/

namespace Zeth.Client

open ByteString Python List

/-! ### Numbers -/

/-- The number of hexadecimal digits, the most significant first. -/
def hexNumber (digits : List Char) : ℕ :=
  Nat.ofDigits 16 (digits.map fun c => (hexVal c).getD 0).reverse

/-- The number of words of 256 bits, the most significant first. -/
def wordsNumber (words : List ℕ) : ℕ := Nat.ofDigits (2 ^ 256) words.reverse

theorem wordsNumber_cons (word : ℕ) (words : List ℕ) :
    wordsNumber (word :: words) = wordsNumber words + (2 ^ 256) ^ words.length * word := by
  rw [wordsNumber, reverse_cons, Nat.ofDigits_append, Nat.ofDigits_singleton,
    length_reverse, wordsNumber]

theorem hexNumber_append (digits rest : List Char) :
    hexNumber (digits ++ rest) = hexNumber rest + 16 ^ rest.length * hexNumber digits := by
  rw [hexNumber, map_append, reverse_append, Nat.ofDigits_append, length_reverse,
    length_map, hexNumber, hexNumber]

theorem hexVal_lt {c : Char} {n : ℕ} (h : hexVal c = some n) : n < 16 := by
  have hle {lo hi : Char} (hc : lo ≤ c ∧ c ≤ hi) : lo.toNat ≤ c.toNat ∧ c.toNat ≤ hi.toNat := hc
  rw [hexVal] at h
  split_ifs at h with h1 h2 h3
  · have hc := hle h1
    have hn := Option.some.inj h
    simp only [show '0'.toNat = 48 from rfl, show '9'.toNat = 57 from rfl] at hc
    omega
  · have hc := hle h2
    have hn := Option.some.inj h
    simp only [show 'a'.toNat = 97 from rfl, show 'f'.toNat = 102 from rfl] at hc
    omega
  · have hc := hle h3
    have hn := Option.some.inj h
    simp only [show 'A'.toNat = 65 from rfl, show 'F'.toNat = 70 from rfl] at hc
    omega

theorem hexNumber_lt (digits : List Char) : hexNumber digits < 16 ^ digits.length := by
  have hdigit : ∀ x ∈ (digits.map fun c => (hexVal c).getD 0).reverse, x < 16 := by
    intro x hx
    obtain ⟨c, -, rfl⟩ := mem_map.mp (mem_reverse.mp hx)
    cases hc : hexVal c with
    | none => exact Nat.succ_pos 15
    | some n => exact hexVal_lt hc
  have h := Nat.ofDigits_lt_base_pow_length (by norm_num) hdigit
  rwa [length_reverse, length_map] at h

/-! ### Digits -/

/-- All characters are hexadecimal digits. -/
def AreHexDigits (digits : List Char) : Prop := ∀ c ∈ digits, (hexVal c).isSome

theorem foldlM_hexVal {digits : List Char} (hdigits : AreHexDigits digits) (acc : ℕ) :
    digits.foldlM (fun acc d => (hexVal d).map (16 * acc + ·)) acc =
      some (16 ^ digits.length * acc + hexNumber digits) := by
  induction digits generalizing acc with
  | nil => simp [hexNumber]
  | cons c digits ih =>
    obtain ⟨hc, hdigits⟩ := forall_mem_cons.mp hdigits
    obtain ⟨n, hn⟩ := Option.isSome_iff_exists.mp hc
    have hone : hexNumber [c] = n := by simp [hexNumber, hn]
    rw [foldlM_cons, hn, Option.map_some, Option.bind_eq_bind, Option.bind_some, ih hdigits,
      ← singleton_append, hexNumber_append, hone, length_append, length_singleton]
    congr 1
    ring

/-- Without a prefix, a string of digits is read as their number. -/
theorem intBase16_ofList {digits : List Char} (hdigits : AreHexDigits digits)
    (hne : digits ≠ []) : intBase16 (String.ofList digits) = .ok (hexNumber digits) := by
  have hprefix : digits.take 2 ≠ ['0', 'x'] := by
    intro h
    have hx : 'x' ∈ digits.take 2 := by rw [h]; decide
    exact absurd (hdigits 'x' (mem_of_mem_take hx)) (by decide)
  obtain ⟨c, cs, rfl⟩ := exists_cons_of_ne_nil hne
  have hfold := foldlM_hexVal hdigits 0
  rw [Nat.mul_zero, Nat.zero_add] at hfold
  rw [intBase16, hexDigits, String.toList_ofList, if_neg hprefix, intHex, String.toList_ofList]
  simp only [hfold]

theorem isHexSpace_of_isSome {c : Char} (hc : (hexVal c).isSome) : isHexSpace c = false := by
  rw [Bool.eq_false_iff]
  intro hspace
  simp only [isHexSpace, Bool.or_eq_true, beq_iff_eq] at hspace
  rcases hspace with ((((rfl | rfl) | rfl) | rfl) | rfl) | rfl <;> exact absurd hc (by decide)

/-- `bytes.fromhex` of an even number of digits is their number in bytes. -/
theorem fromhexChars_eq {k : ℕ} {digits : List Char} (hdigits : AreHexDigits digits)
    (hlen : digits.length = 2 * k) : fromhexChars digits = some (toBig k (hexNumber digits)) := by
  induction k generalizing digits with
  | zero =>
    rw [eq_nil_of_length_eq_zero hlen]
    rfl
  | succ k ih =>
    obtain ⟨c, c', rest, rfl⟩ : ∃ c c' rest, digits = c :: c' :: rest := by
      match digits, hlen with
      | c :: c' :: rest, _ => exact ⟨c, c', rest, rfl⟩
    obtain ⟨hc, hrest⟩ := forall_mem_cons.mp hdigits
    obtain ⟨hc', hrest⟩ := forall_mem_cons.mp hrest
    obtain ⟨x, hx⟩ := Option.isSome_iff_exists.mp hc
    obtain ⟨y, hy⟩ := Option.isSome_iff_exists.mp hc'
    have hrestLen : rest.length = 2 * k := by
      rw [length_cons, length_cons] at hlen
      omega
    have hpow : 16 ^ rest.length = 256 ^ k := by rw [hrestLen, pow_mul]; rfl
    have hlt : hexNumber rest < 256 ^ k := (hexNumber_lt rest).trans_eq hpow
    have hnumber : hexNumber (c :: c' :: rest) = hexNumber rest + 256 ^ k * (16 * x + y) := by
      have hpair : hexNumber [c, c'] = 16 * x + y := by
        simp [hexNumber, hx, hy, Nat.ofDigits_cons, Nat.add_comm]
      rw [← hpair, ← hpow, ← hexNumber_append]
      rfl
    have hdiv : hexNumber (c :: c' :: rest) / 256 ^ k = 16 * x + y := by
      rw [hnumber, Nat.add_mul_div_left _ _ (Nat.pow_pos (by norm_num)), Nat.div_eq_of_lt hlt,
        Nat.zero_add]
    have hlow : toBig k (hexNumber (c :: c' :: rest)) = toBig k (hexNumber rest) := by
      rw [← toBig_mod, hnumber, Nat.add_mul_mod_self_left, toBig_mod]
    rw [Nat.add_comm k 1, toBig_add, hdiv, hlow, fromhexChars, isHexSpace_of_isSome hc,
      if_neg Bool.false_ne_true, hx, hy]
    simp only [ih hrest hrestLen, Option.map_some]
    rfl

/-! ### The loop -/

/-- What the words of the remaining digits are. -/
structure IsWordsOf (digits : List Char) (words : List ℕ) : Prop where
  length_eq : words.length = (digits.length + 63) / 64
  lt : ∀ word ∈ words, word < 2 ^ 256
  number_eq : wordsNumber words = hexNumber digits

theorem hexNumber_lt_word {digits : List Char} (h : digits.length ≤ 64) :
    hexNumber digits < 2 ^ 256 :=
  (hexNumber_lt digits).trans_le ((Nat.pow_le_pow_right (by norm_num) h).trans_eq (by norm_num))

/-- A chunk of at most 64 digits before words of 64 digits each. -/
theorem IsWordsOf.cons {chunk rest : List Char} {words : List ℕ} (hwords : IsWordsOf rest words)
    (hpos : 0 < chunk.length) (hle : chunk.length ≤ 64) (hrest : rest.length % 64 = 0) :
    IsWordsOf (chunk ++ rest) (hexNumber chunk :: words) := by
  have hlen := hwords.length_eq
  have hsize : rest.length = 64 * words.length := by omega
  refine ⟨?_, forall_mem_cons.mpr ⟨hexNumber_lt_word hle, hwords.lt⟩, ?_⟩
  · rw [length_cons, length_append]
    omega
  · rw [wordsNumber_cons, hexNumber_append, hwords.number_eq, hsize, pow_mul, show 16 ^ 64 = 2 ^ 256
      by norm_num]

/-- The loop of `hex_to_uint256_list` reads the digits from `start_idx` on: those up to `next_idx`
are one word, and what follows is a multiple of 64. -/
theorem hexWords_spec {digits : List Char} (hdigits : AreHexDigits digits) {startIdx nextIdx : ℕ}
    (hlt : startIdx < nextIdx) (hle : nextIdx ≤ startIdx + 64)
    (hmod : nextIdx % 64 = digits.length % 64) (hstart : startIdx ≤ digits.length)
    (hfull : digits.length < nextIdx → startIdx = digits.length) :
    ∃ words, hexWords digits startIdx nextIdx = .ok words ∧
      IsWordsOf (digits.drop startIdx) words := by
  fun_induction hexWords digits startIdx nextIdx with
  | case1 startIdx nextIdx hnext ih =>
    set chunk := (digits.drop startIdx).take (nextIdx - startIdx) with hchunk
    have hchunkLen : chunk.length = nextIdx - startIdx := by
      rw [hchunk, length_take, length_drop]
      omega
    have hchunkDigits : AreHexDigits chunk := fun c hc =>
      hdigits c (mem_of_mem_drop (mem_of_mem_take hc))
    have hne : chunk ≠ [] := ne_nil_of_length_pos (by omega)
    have hsplit : digits.drop startIdx = chunk ++ digits.drop nextIdx := by
      have h := take_append_drop (nextIdx - startIdx) (digits.drop startIdx)
      rw [drop_drop, Nat.add_sub_cancel' hlt.le] at h
      exact h.symm
    obtain ⟨words, hwords, hspec⟩ := ih (by omega) le_rfl (by omega) hnext (by omega)
    refine ⟨hexNumber chunk :: words, ?_, ?_⟩
    · rw [intBase16_ofList hchunkDigits hne, Except.ok_bind, hwords]
      rfl
    · rw [hsplit]
      refine hspec.cons (by omega) (by omega) ?_
      rw [length_drop]
      omega
  | case2 startIdx nextIdx hnext =>
    rw [hfull (not_le.mp hnext), drop_length]
    exact ⟨[], rfl, rfl, fun word hword => absurd hword not_mem_nil, rfl⟩

/-- A string of an even number of hexadecimal digits, at least one, with or without `0x`. -/
structure IsHexString (s : String) : Prop where
  areHexDigits : AreHexDigits (hexDigits s)
  even : (hexDigits s).length % 2 = 0
  pos : 0 < (hexDigits s).length

/-- The words of a string. -/
theorem hexToUint256List_spec {s : String} (hs : IsHexString s) :
    ∃ words, hexToUint256List s = .ok words ∧ IsWordsOf (hexDigits s) words := by
  have hpos := hs.pos
  have heven : ((hexDigits s).length % 2 == 0) = true := beq_iff_eq.mpr hs.even
  obtain ⟨words, hwords, hspec⟩ := hexWords_spec hs.areHexDigits
    (show 0 < (hexDigits s).length - ((hexDigits s).length - 1) / 64 * 64 by omega) (by omega)
    (by omega) (Nat.zero_le _) (by omega)
  rw [drop_zero] at hspec
  refine ⟨words, ?_, hspec⟩
  simp only [hexToUint256List, heven, assert_true, Except.ok_bind]
  exact hwords

/-! ### Lists of strings -/

/-- `isinstance(el, (list, tuple))`. -/
def Coordinate.isList : Coordinate → Bool
  | .str _ => false
  | .list _ => true

/-- The strings of an element. -/
def Coordinate.strings : Coordinate → List String
  | .str element => [element]
  | .list elements => elements

/-- The string that an element is, if it is one. -/
def Coordinate.str? : Coordinate → Option String
  | .str element => some element
  | .list _ => none

/-- One pass of the loop of `string_list_flatten`. -/
def flattenStep (strs : List String) : Coordinate → List String
  | .list elements => strs ++ elements
  | .str element => strs ++ [element]

/-- `string_list_flatten`. Without a list among the elements they are all strings. -/
def stringListFlatten (strList : List Coordinate) : List String :=
  if strList.any Coordinate.isList then strList.foldl flattenStep []
  else strList.filterMap Coordinate.str?

/-- `hex_list_to_uint256_list`, on strings and lists of strings. -/
def hexListToUint256ListNested (elements : List Coordinate) : Except Exc (List ℕ) :=
  hexListToUint256List (stringListFlatten elements)

theorem foldl_flattenStep (strList : List Coordinate) (strs : List String) :
    strList.foldl flattenStep strs = strs ++ strList.flatMap Coordinate.strings := by
  induction strList generalizing strs with
  | nil => exact (append_nil strs).symm
  | cons el strList ih =>
    rw [foldl_cons, ih, flatMap_cons, ← append_assoc]
    cases el <;> rfl

theorem stringListFlatten_eq (strList : List Coordinate) :
    stringListFlatten strList = strList.flatMap Coordinate.strings := by
  rw [stringListFlatten]
  split_ifs with hany
  · rw [foldl_flattenStep, nil_append]
  · induction strList with
    | nil => rfl
    | cons el strList ih =>
      rw [any_cons, Bool.or_eq_true, not_or] at hany
      cases el with
      | str element => exact congrArg (element :: ·) (ih hany.2)
      | list elements => exact absurd rfl hany.1

/-- A string is split into its words in base `2 ^ 256`, and a list of strings, or of strings and
lists of strings, into the words of its strings one after the other. -/
theorem hexToUint256List_isPositional :
    (∀ s : String, IsHexString s → ∃ words, hexToUint256List s = .ok words ∧
      words.length = ((hexDigits s).length + 63) / 64 ∧ (∀ word ∈ words, word < 2 ^ 256) ∧
      wordsNumber words = hexNumber (hexDigits s)) ∧
    ∀ elements : List Coordinate, (∀ s ∈ elements.flatMap Coordinate.strings, IsHexString s) →
      ∃ wordLists, (elements.flatMap Coordinate.strings).Forall₂
        (fun s words => hexToUint256List s = .ok words) wordLists ∧
        hexListToUint256ListNested elements = .ok wordLists.flatten := by
  constructor
  · intro s hs
    obtain ⟨words, hwords, hspec⟩ := hexToUint256List_spec hs
    exact ⟨words, hwords, hspec.length_eq, hspec.lt, hspec.number_eq⟩
  · intro elements helements
    obtain ⟨wordLists, hlists⟩ := Except.exists_mapM fun s hs =>
      (hexToUint256List_spec (helements s hs)).imp fun _ h => h.1
    refine ⟨wordLists, Except.mapM_eq_ok.mp hlists, ?_⟩
    rw [hexListToUint256ListNested, stringListFlatten_eq, hexListToUint256List, hlists]
    rfl

theorem isHexString_of_all {s : String}
    (h : (hexDigits s).all (fun c => (hexVal c).isSome) = true)
    (hlen : (hexDigits s).length % 2 = 0 ∧ 0 < (hexDigits s).length) : IsHexString s :=
  ⟨all_eq_true.mp h, hlen.1, hlen.2⟩

/-- A string of 33 bytes, with the prefix `0x`, is two words; a string after a list of strings. -/
theorem hexToUint256List_isPositional_two_words :
    (∃ words, hexToUint256List ("0x" ++ String.ofList (List.replicate 66 'f')) = .ok words ∧
      words.length = 2 ∧ (∀ word ∈ words, word < 2 ^ 256) ∧
      wordsNumber words = 2 ^ 264 - 1) ∧
    ∃ wordLists, ["0x01", "02", "ff"].Forall₂ (fun s words => hexToUint256List s = .ok words)
        wordLists ∧
      hexListToUint256ListNested [.list ["0x01", "02"], .str "ff"] = .ok wordLists.flatten := by
  have hs : hexDigits ("0x" ++ String.ofList (List.replicate 66 'f')) = List.replicate 66 'f' := by
    decide
  obtain ⟨words, hwords, hlength, hlt, hnumber⟩ := hexToUint256List_isPositional.1
    ("0x" ++ String.ofList (List.replicate 66 'f'))
    (isHexString_of_all (by rw [hs]; decide) (by rw [hs]; decide))
  rw [hs] at hlength hnumber
  refine ⟨⟨words, hwords, hlength, hlt, hnumber.trans (by decide +kernel)⟩,
    hexToUint256List_isPositional.2 [.list ["0x01", "02"], .str "ff"] fun s hs => ?_⟩
  rcases mem_cons.mp hs with rfl | hs
  · exact isHexString_of_all (by decide) (by decide)
  · rcases mem_cons.mp hs with rfl | hs
    · exact isHexString_of_all (by decide) (by decide)
    · obtain rfl := mem_singleton.mp hs
      exact isHexString_of_all (by decide) (by decide)

end Zeth.Client
