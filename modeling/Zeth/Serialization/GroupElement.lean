import Mathlib.Data.ZMod.Basic
import Mathlib.Tactic.LinearCombination
import Zeth.Foundation.Python
import Zeth.Foundation.Reader
import Zeth.Foundation.StreamCodec

/-!
# Points on streams

A point of a curve is written as its two affine coordinates, in bytes or in JSON
(`libzeth/core/group_element_utils.tcc`). The identity has none. Its coordinates are set to zero and
one, and a point with these coordinates is read as the identity.

So every point of a curve `y² = x³ + b` is read back but one with the coordinates zero and one, which
has the encoding of the identity. It is on the curve if `b` is one, among the curves of the library
on BLS12-377 only.

How coordinates are written and read is a parameter. In bytes they are read back from the front of a
stream. In JSON they are strings of hexadecimal digits between quotation marks, and nothing is read
where there is no quotation mark.

## Main definitions

* `Fault`, `Point`, `Point.toAffineCoordinates`, `Point.ofCoordinates`.
* `groupElementWriteBytes`, `groupElementReadBytes`.
* `JsonField`, `groupElementWriteJson`, `groupElementReadJson`.
* `Curve`, `Point.isWellFormed`.

## Main results

* `reads_groupElement_iff`, `reads_groupElementJson_iff`: which points are read back.
* `Curve.encoding_exact_iff`: these, and which points share an encoding.
-/

namespace Zeth.Serialization

open ByteString List

/-- What a reader may end with: the end of the stream, or an exception with its text. -/
inductive Fault where
  | endOfStream
  | exception (message : String)
  deriving DecidableEq

/-! ### Points -/

/-- A group element by its affine coordinates. -/
inductive Point (K : Type) where
  | identity
  | affine (x y : K)
  deriving DecidableEq

variable {K : Type} [CommRing K] [DecidableEq K]

namespace Point

/-- The coordinates `X` and `Y` after `to_affine_coordinates`. -/
def toAffineCoordinates : Point K → K × K
  | identity => (0, 1)
  | affine x y => (x, y)

/-- The point with the coordinates `X` and `Y` that have been read, where `Z` is set to zero if they
are those of the identity. -/
def ofCoordinates (x y : K) : Point K := if x = 0 ∧ y = 1 then identity else affine x y

theorem ofCoordinates_inj {x y x' y' : K} (h : ofCoordinates x y = ofCoordinates x' y') :
    (x, y) = (x', y') := by
  unfold ofCoordinates at h
  split_ifs at h with h₁ h₂ h₂
  · rw [h₁.1, h₁.2, h₂.1, h₂.2]
  · cases h
    rfl

theorem ofCoordinates_toAffineCoordinates_iff {p : Point K} :
    ofCoordinates p.toAffineCoordinates.1 p.toAffineCoordinates.2 = p ↔ p ≠ affine 0 1 := by
  cases p with
  | identity => exact iff_of_true (if_pos ⟨rfl, rfl⟩) nofun
  | affine x y =>
    rw [toAffineCoordinates, ofCoordinates]
    split_ifs with h
    · obtain ⟨rfl, rfl⟩ := h
      exact iff_of_false nofun (not_not.mpr rfl)
    · refine iff_of_true rfl fun heq => h ?_
      cases heq
      exact ⟨rfl, rfl⟩

omit [DecidableEq K] in
/-- Points with the same coordinates are the same, or the identity and the point that has its
coordinates. -/
theorem toAffineCoordinates_eq_iff {p p' : Point K} :
    p.toAffineCoordinates = p'.toAffineCoordinates ↔
      p = p' ∨ p = identity ∧ p' = affine 0 1 ∨ p = affine 0 1 ∧ p' = identity := by
  cases p <;> cases p' <;> simp [toAffineCoordinates, eq_comm]

end Point

/-! ### Bytes -/

/-- What a codec reads. -/
def codecReader (c : StreamCodec K) : Reader Fault Byte K := fun bs =>
  match c.read bs with
  | some p => .ok p
  | none => .error .endOfStream

/-- `group_element_write_bytes`. -/
def groupElementWriteBytes (c : StreamCodec K) (p : Point K) : Bytes :=
  c.write p.toAffineCoordinates.1 ++ c.write p.toAffineCoordinates.2

/-- `group_element_read_bytes`. -/
def groupElementReadBytes (c : StreamCodec K) : Reader Fault Byte (Point K) := do
  let x ← codecReader c
  let y ← codecReader c
  return Point.ofCoordinates x y

omit [CommRing K] [DecidableEq K] in
theorem reads_codec (c : StreamCodec K) (x : K) : Reads (codecReader c) (c.write x) x := by
  intro rest
  rw [codecReader, c.read_write]

/-- Two coordinates are read back as the point that they stand for. -/
theorem reads_coordinates (c : StreamCodec K) (p : Point K) :
    Reads (groupElementReadBytes c) (groupElementWriteBytes c p)
      (Point.ofCoordinates p.toAffineCoordinates.1 p.toAffineCoordinates.2) :=
  (reads_codec c _).bind ((reads_codec c _).map rfl)

/-- A point is read back unless it has the coordinates of the identity. -/
theorem reads_groupElement_iff (c : StreamCodec K) {p : Point K} :
    Reads (groupElementReadBytes c) (groupElementWriteBytes c p) p ↔ p ≠ .affine 0 1 := by
  have h := reads_coordinates c p
  rw [← Point.ofCoordinates_toAffineCoordinates_iff]
  refine ⟨h.injective, fun heq => ?_⟩
  rwa [heq] at h

/-! ### JSON -/

/-- Field elements in JSON: a string of hexadecimal digits with its quotation marks. -/
structure JsonField (K : Type) where
  hex : K → List Char
  isAlphanum_hex : ∀ x, ∀ c ∈ hex x, c.isAlphanum = true
  read : Reader Fault Char K
  reads : ∀ x, Reads read ('"' :: hex x ++ ['"']) x
  read_eq_error : ∀ {cs}, cs.head? ≠ some '"' → ∃ e, read cs = .error e
  length_read_le : ∀ {cs x rest}, read cs = .ok (x, rest) → rest.length ≤ cs.length

/-- `field_element_write_json`. -/
def JsonField.write (J : JsonField K) (x : K) : List Char := '"' :: J.hex x ++ ['"']

/-- `std::isspace`. -/
def isSpace (c : Char) : Bool := c = ' ' || '\t' ≤ c && c ≤ '\r'

/-- `in_s >> sep`: the next character that is not white space. -/
def nextChar : Reader Fault Char Char
  | [] => .error .endOfStream
  | c :: cs => if isSpace c then nextChar cs else .ok (c, cs)

/-- A character that has to come next. -/
def expectChar (expected : Char) (message : String) : Reader Fault Char Unit := do
  let sep ← nextChar
  if sep ≠ expected then throw (.exception message)

/-- `group_element_write_json`. -/
def groupElementWriteJson (J : JsonField K) (p : Point K) : List Char :=
  ['['] ++ (J.write p.toAffineCoordinates.1 ++
    ([','] ++ (J.write p.toAffineCoordinates.2 ++ [']'])))

/-- `group_element_read_json`. -/
def groupElementReadJson (J : JsonField K) : Reader Fault Char (Point K) := do
  expectChar '[' "expected opening bracket reading group element"
  let x ← J.read
  expectChar ',' "expected comma reading group element"
  let y ← J.read
  expectChar ']' "expected closing bracket reading group element"
  return Point.ofCoordinates x y

theorem reads_nextChar {c : Char} (hc : isSpace c = false) : Reads nextChar [c] c := by
  intro rest
  rw [singleton_append, nextChar, hc, if_neg Bool.false_ne_true]

theorem reads_expectChar {c : Char} (hc : isSpace c = false) (message : String) :
    Reads (expectChar c message) [c] () := by
  intro rest
  change (nextChar ([c] ++ rest) >>= fun p =>
    (if p.1 ≠ c then throw (.exception message) else pure () : Reader Fault Char Unit) p.2) = _
  rw [reads_nextChar hc, Except.ok_bind, if_neg (not_not.mpr rfl)]
  rfl

theorem reads_coordinatesJson (J : JsonField K) (p : Point K) :
    Reads (groupElementReadJson J) (groupElementWriteJson J p)
      (Point.ofCoordinates p.toAffineCoordinates.1 p.toAffineCoordinates.2) :=
  (reads_expectChar (by decide) _).bind ((J.reads _).bind ((reads_expectChar (by decide) _).bind
    ((J.reads _).bind ((reads_expectChar (by decide) _).map rfl))))

/-- A point is read back from JSON unless it has the coordinates of the identity. -/
theorem reads_groupElementJson_iff (J : JsonField K) {p : Point K} :
    Reads (groupElementReadJson J) (groupElementWriteJson J p) p ↔ p ≠ .affine 0 1 := by
  have h := reads_coordinatesJson J p
  rw [← Point.ofCoordinates_toAffineCoordinates_iff]
  refine ⟨h.injective, fun heq => ?_⟩
  rwa [heq] at h

/-! ### Curves -/

/-- The curves of the library. -/
inductive Curve where
  | altBN128
  | bls12377
  | bw6761
  deriving DecidableEq

/-- The coefficient of the equation of the first group. -/
def Curve.b : Curve → K
  | altBN128 => 3
  | bls12377 => 1
  | bw6761 => -1

/-- `is_well_formed`: the equation of the curve holds, or the point is the identity. -/
def Point.isWellFormed (b : K) : Point K → Bool
  | identity => true
  | affine x y => y ^ 2 = x ^ 3 + b

/-- The coordinates of the identity are on the curve if the coefficient is one. -/
theorem isWellFormed_affine_zero_one {b : K} :
    (Point.affine 0 1).isWellFormed b = true ↔ b = 1 := by
  rw [Point.isWellFormed, decide_eq_true_iff, one_pow, zero_pow three_ne_zero, zero_add, eq_comm]

omit [DecidableEq K] in
theorem Curve.b_eq_one_iff (h2 : (2 : K) ≠ 0) (curve : Curve) :
    (curve.b : K) = 1 ↔ curve = .bls12377 := by
  cases curve with
  | altBN128 =>
    refine iff_of_false (fun h : (3 : K) = 1 => h2 ?_) nofun
    linear_combination h
  | bls12377 => exact iff_of_true rfl rfl
  | bw6761 =>
    refine iff_of_false (fun h : (-1 : K) = 1 => h2 ?_) nofun
    linear_combination -h

/-- **Points on streams.** A well-formed point is read back from both encodings exactly if it is not
the point with the coordinates zero and one, which is well formed on BLS12-377 only. Two points share
an encoding exactly if they are the same, or this point and the identity. -/
theorem Curve.encoding_exact_iff (h2 : (2 : K) ≠ 0) (c : StreamCodec K) (J : JsonField K)
    (curve : Curve) {p : Point K} (hp : p.isWellFormed curve.b = true) :
    (Reads (groupElementReadBytes c) (groupElementWriteBytes c p) p ∧
        Reads (groupElementReadJson J) (groupElementWriteJson J p) p ↔ p ≠ .affine 0 1) ∧
      (p = .affine 0 1 → curve = .bls12377) ∧
      ∀ p' : Point K, (groupElementWriteBytes c p = groupElementWriteBytes c p' ∨
          groupElementWriteJson J p = groupElementWriteJson J p') ↔
        p = p' ∨ p = .identity ∧ p' = .affine 0 1 ∨ p = .affine 0 1 ∧ p' = .identity := by
  refine ⟨?_, ?_, fun p' => ?_⟩
  · rw [reads_groupElement_iff, reads_groupElementJson_iff, and_self]
  · rintro rfl
    exact (Curve.b_eq_one_iff h2 curve).mp (isWellFormed_affine_zero_one.mp hp)
  · rw [← Point.toAffineCoordinates_eq_iff]
    constructor
    · rintro (heq | heq)
      · have h := reads_coordinates c p'
        rw [← heq] at h
        exact Point.ofCoordinates_inj ((reads_coordinates c p).injective h)
      · have h := reads_coordinatesJson J p'
        rw [← heq] at h
        exact Point.ofCoordinates_inj ((reads_coordinatesJson J p).injective h)
    · intro heq
      rw [groupElementWriteBytes, groupElementWriteBytes, heq]
      exact .inl rfl

/-! ### Residues -/

section Residues

variable (q n : ℕ) [NeZero q]

/-- Residues as numbers of `n` bytes. -/
def residueBytes (hq : q ≤ 256 ^ n) : StreamCodec (ZMod q) where
  write x := toBig n x.val
  read bs := if n ≤ bs.length then some ((fromBig (bs.take n) : ZMod q), bs.drop n) else none
  read_write x rest := by
    have hlength := length_toBig n x.val
    have hle : n ≤ (toBig n x.val ++ rest).length := by
      rw [length_append, hlength]
      exact Nat.le_add_right _ _
    have htake : (toBig n x.val ++ rest).take n = toBig n x.val := take_left' hlength
    have hdrop : (toBig n x.val ++ rest).drop n = rest := drop_left' hlength
    rw [if_pos hle, htake, hdrop, fromBig_toBig, Nat.mod_eq_of_lt (x.val_lt.trans_le hq),
      ZMod.natCast_zmod_val]
  length_read_le := by
    intro bs x rest h
    split_ifs at h
    cases h
    rw [length_drop]
    exact Nat.sub_le _ _

theorem isAlphanum_hexChars (bs : Bytes) : ∀ c ∈ Python.hexChars bs, c.isAlphanum = true := by
  have hdigit : ∀ k < 16, (Python.hexDigit k).isAlphanum = true := by decide
  induction bs with
  | nil => exact forall_mem_nil _
  | cons b bs ih =>
    rw [Python.hexChars, forall_mem_cons, forall_mem_cons]
    exact ⟨hdigit _ (by omega), hdigit _ (by omega), ih⟩

theorem ne_quote_of_isAlphanum {c : Char} (hc : c.isAlphanum = true) : c ≠ '"' := by
  rintro rfl
  exact absurd hc (by decide)

/-- Residues as hexadecimal numbers of `n` bytes. -/
def residueJson (hq : q ≤ 256 ^ n) : JsonField (ZMod q) where
  hex x := Python.hexChars (toBig n x.val)
  isAlphanum_hex x := isAlphanum_hexChars _
  read
    | '"' :: cs =>
      match Python.fromhexChars (cs.takeWhile (· ≠ '"')) with
      | some bs => .ok ((fromBig bs : ZMod q), (cs.dropWhile (· ≠ '"')).tail)
      | none => .error (.exception "expected hex")
    | _ => .error (.exception "expected json string")
  reads x rest := by
    have hne : ∀ c ∈ Python.hexChars (toBig n x.val), decide (c ≠ '"') = true := fun c hc =>
      decide_eq_true (ne_quote_of_isAlphanum (isAlphanum_hexChars _ c hc))
    have htake : (Python.hexChars (toBig n x.val) ++ '"' :: rest).takeWhile (· ≠ '"') =
        Python.hexChars (toBig n x.val) := by
      rw [takeWhile_append_of_pos hne, takeWhile_cons_of_neg (by simp), append_nil]
    have hdrop : (Python.hexChars (toBig n x.val) ++ '"' :: rest).dropWhile (· ≠ '"') =
        '"' :: rest := by
      rw [dropWhile_append_of_pos hne, dropWhile_cons_of_neg (by simp)]
    simp only [cons_append, append_assoc, nil_append, htake, hdrop,
      Python.fromhexChars_hexChars, tail_cons, fromBig_toBig,
      Nat.mod_eq_of_lt (x.val_lt.trans_le hq), ZMod.natCast_zmod_val]
  read_eq_error := by
    intro cs hcs
    split
    · exact absurd rfl hcs
    · exact ⟨_, rfl⟩
  length_read_le := by
    intro cs x rest h
    split at h
    · next cs =>
      split at h
      · cases h
        have hle : (cs.dropWhile (· ≠ '"')).length ≤ cs.length :=
          (dropWhile_suffix _).length_le
        rw [length_tail, length_cons]
        omega
      · cases h
    · cases h

end Residues

/-- The modulus of the coordinates of the first group of ALT-BN128. -/
def altBN128Modulus : ℕ :=
  21888242871839275222246405745257275088696311157297823662689037894645226208583

/-- The modulus of the coordinates of the first group of BLS12-377. -/
def bls12377Modulus : ℕ :=
  0x01ae3a4617c510eac63b05c06ca1493b1a22d9f300f5138f1ef3622fba094800170b5d44300000008508c00000000001

instance neZero_altBN128Modulus : NeZero altBN128Modulus := ⟨by decide⟩

instance neZero_bls12377Modulus : NeZero bls12377Modulus := ⟨by decide⟩

/-- The point `(-1, 0)` of BLS12-377, with coordinates of 48 bytes, is read back. -/
theorem encoding_exact_bls12377 :
    Reads (groupElementReadBytes (residueBytes bls12377Modulus 48 (by decide)))
        (groupElementWriteBytes (residueBytes bls12377Modulus 48 (by decide)) (.affine (-1) 0))
        (.affine (-1) 0) ∧
      Reads (groupElementReadJson (residueJson bls12377Modulus 48 (by decide)))
        (groupElementWriteJson (residueJson bls12377Modulus 48 (by decide)) (.affine (-1) 0))
        (.affine (-1) 0) := by
  have h2 : (2 : ZMod bls12377Modulus) ≠ 0 := fun h =>
    absurd ((ZMod.natCast_eq_zero_iff 2 bls12377Modulus).mp h) (by decide)
  refine (Curve.encoding_exact_iff h2 _ _ .bls12377 (by decide +kernel)).1.mpr ?_
  decide +kernel

/-- The point with the coordinates zero and one is on BLS12-377, is read as the identity and has its
encodings. -/
theorem bls12377_ambiguous :
    (Point.affine (0 : ZMod bls12377Modulus) 1).isWellFormed (Curve.b .bls12377) = true ∧
      groupElementReadBytes (residueBytes bls12377Modulus 48 (by decide))
        (groupElementWriteBytes (residueBytes bls12377Modulus 48 (by decide)) (.affine 0 1)) =
          .ok (.identity, []) ∧
      groupElementWriteJson (residueJson bls12377Modulus 48 (by decide)) (.affine 0 1) =
        groupElementWriteJson (residueJson bls12377Modulus 48 (by decide)) .identity := by
  have hread := reads_coordinates (residueBytes bls12377Modulus 48 (by decide)) (.affine 0 1)
  rw [Point.ofCoordinates, if_pos ⟨rfl, rfl⟩] at hread
  refine ⟨isWellFormed_affine_zero_one.mpr rfl, ?_, rfl⟩
  have h := hread []
  rwa [append_nil] at h

end Zeth.Serialization
