import Zeth.Serialization.StreamUtils

/-!
# Vectors in JSON

Accumulation vectors and primary inputs are written as JSON arrays, and read back by scanners
(`libzeth/serialization/r1cs_serialization.tcc`). The scanner for accumulation vectors looks for an
opening bracket before a quotation mark and for the next quotation mark before a closing bracket,
and reads what is between as a point. The scanner for primary inputs reads a field element after
each opening bracket or comma.

Both expect at least one entry after the point where they begin to loop: the rest of an accumulation
vector is read by a loop that tests for a further element after the first pass, and an opening
bracket has to be followed by a field element. So an accumulation vector without a rest and an empty
list of inputs are not read back. The number of entries of an accumulation vector that are written
is counted in 32 bits, and what is read is a dense vector.

A position in the text is given by the text from there on.

## Main definitions

* `primaryInputsWriteJson`, `primaryInputsReadJson`.
* `findPair`: `std::string::find` for two characters.
* `accumulationVectorToJson`, `accumulationVectorFromJson`.

## Main results

* `primaryInputs_roundTrip_iff`, `accumulationVector_roundTrip_iff`.
* `jsonVectors_roundTrip_iff`.
-/

namespace Zeth.Serialization

open List

variable {K : Type} [CommRing K] [DecidableEq K] (J : JsonField K)

/-! ### Primary inputs -/

/-- `primary_inputs_write_json`. -/
def primaryInputsWriteJson (publicInputs : List K) : List Char :=
  ['['] ++ [','].intercalate (publicInputs.map J.write) ++ [']']

theorem nextChar_cons {c : Char} (hc : isSpace c = false) (cs : List Char) :
    nextChar (c :: cs) = .ok (c, cs) :=
  reads_nextChar hc cs

theorem length_nextChar_lt {cs rest : List Char} {c : Char} (h : nextChar cs = .ok (c, rest)) :
    rest.length < cs.length := by
  induction cs with
  | nil => cases h
  | cons d cs ih =>
    rw [nextChar] at h
    split_ifs at h with hspace
    · exact (ih h).trans (Nat.lt_succ_self _)
    · cases h
      exact Nat.lt_succ_self _

/-- `primary_inputs_read_json`. At the end of the stream the separator is still zero. -/
def primaryInputsReadJson (cs : List Char) : Except Fault (List K × List Char) :=
  match hsep : nextChar cs with
  | .error _ => .ok ([], [])
  | .ok (separator, rest) =>
    if '[' ≠ separator ∧ ',' ≠ separator then .ok ([], rest)
    else
      match helement : J.read rest with
      | .error e => .error e
      | .ok (element, rest') =>
        have := (J.length_read_le helement).trans_lt (length_nextChar_lt hsep)
        do
          let (elements, last) ← primaryInputsReadJson rest'
          return (element :: elements, last)
termination_by cs.length

variable {J}

omit [CommRing K] [DecidableEq K] in
/-- Anything but an opening bracket or a comma ends the list. -/
theorem primaryInputsReadJson_of_ne {cs rest : List Char} {separator : Char}
    (hsep : nextChar cs = .ok (separator, rest)) (hne : '[' ≠ separator ∧ ',' ≠ separator) :
    primaryInputsReadJson J cs = .ok ([], rest) := by
  rw [primaryInputsReadJson]
  split
  · next h => cases hsep.symm.trans h
  · next h =>
    cases hsep.symm.trans h
    rw [if_pos hne]

omit [CommRing K] [DecidableEq K] in
/-- A separator is followed by an element. -/
theorem primaryInputsReadJson_of_eq {cs rest : List Char} {separator : Char}
    (hsep : nextChar cs = .ok (separator, rest)) (heq : '[' = separator ∨ ',' = separator) :
    primaryInputsReadJson J cs = (J.read rest >>= fun element =>
      primaryInputsReadJson J element.2 >>= fun elements =>
        .ok (element.1 :: elements.1, elements.2)) := by
  have hneg : ¬ ('[' ≠ separator ∧ ',' ≠ separator) := by
    rintro ⟨h, h'⟩
    exact heq.elim h h'
  rw [primaryInputsReadJson]
  split
  · next h => cases hsep.symm.trans h
  · next h =>
    cases hsep.symm.trans h
    rw [if_neg hneg]
    split
    · next helement => rw [helement, Except.error_bind]
    · next rest' helement =>
      change (primaryInputsReadJson J rest' >>= _) = _
      rw [helement]
      rfl

omit [CommRing K] [DecidableEq K] in
/-- Elements after separators, up to the closing bracket. -/
theorem primaryInputsReadJson_elements {separator : Char} (hspace : isSpace separator = false)
    (heq : '[' = separator ∨ ',' = separator) (x : K) (xs : List K) (rest : List Char) :
    primaryInputsReadJson J
        (separator :: ([','].intercalate ((x :: xs).map J.write) ++ ']' :: rest)) =
      .ok (x :: xs, rest) := by
  induction xs generalizing separator x with
  | nil =>
    rw [map_singleton, intercalate_singleton,
      primaryInputsReadJson_of_eq (nextChar_cons hspace _) heq, JsonField.write, J.reads,
      Except.ok_bind, primaryInputsReadJson_of_ne (nextChar_cons (by decide) rest) (by decide)]
    rfl
  | cons y ys ih =>
    have hnext := @ih ',' (by decide) (.inr rfl) y
    rw [map_cons, map_cons, intercalate_cons_cons, ← map_cons,
      append_assoc, primaryInputsReadJson_of_eq (nextChar_cons hspace _) heq,
      append_assoc, JsonField.write, J.reads, Except.ok_bind, singleton_append, hnext]
    rfl

omit [CommRing K] [DecidableEq K] in
/-- An opening bracket has to be followed by an element. -/
theorem primaryInputsReadJson_write_nil :
    ∃ e, primaryInputsReadJson J (primaryInputsWriteJson J []) = .error e := by
  have hclose : ([']'] : List Char).head? ≠ some '"' := by decide
  obtain ⟨e, he⟩ := J.read_eq_error hclose
  have hread := primaryInputsReadJson_of_eq (J := J) (nextChar_cons (by decide) [']']) (.inl rfl)
  rw [he, Except.error_bind] at hread
  exact ⟨e, hread⟩

omit [CommRing K] [DecidableEq K] in
/-- Primary inputs are read back if there is at least one. -/
theorem primaryInputs_roundTrip_iff (publicInputs : List K) :
    primaryInputsReadJson J (primaryInputsWriteJson J publicInputs) = .ok (publicInputs, []) ↔
      publicInputs ≠ [] := by
  cases publicInputs with
  | nil =>
    refine iff_of_false (fun h => ?_) (not_not_intro rfl)
    obtain ⟨e, he⟩ := primaryInputsReadJson_write_nil (J := J)
    cases he.symm.trans h
  | cons x xs =>
    refine iff_of_true ?_ (cons_ne_nil x xs)
    rw [primaryInputsWriteJson, append_assoc]
    exact primaryInputsReadJson_elements (by decide) (.inl rfl) x xs []

/-! ### Search -/

/-- `find` of two characters, from the beginning of a text: what is before their first occurrence,
and the text from there on. -/
def findPair (a b : Char) : List Char → Option (List Char × List Char)
  | c :: c' :: cs =>
    if c = a ∧ c' = b then some ([], c :: c' :: cs)
    else (findPair a b (c' :: cs)).map fun found => (c :: found.1, found.2)
  | _ => none

section Find

variable {a b c : Char} {cs : List Char}

theorem findPair_self : findPair a b (a :: b :: cs) = some ([], a :: b :: cs) :=
  if_pos ⟨rfl, rfl⟩

theorem findPair_cons (h : c ≠ a ∨ cs.head? ≠ some b) :
    findPair a b (c :: cs) = (findPair a b cs).map fun found => (c :: found.1, found.2) := by
  cases cs with
  | nil => rfl
  | cons c' cs =>
    rw [findPair, if_neg]
    rintro ⟨rfl, rfl⟩
    exact h.elim (fun h => h rfl) fun h => h rfl

theorem findPair_append {l : List Char} (h : ∀ c ∈ l, c ≠ a) :
    findPair a b (l ++ cs) = (findPair a b cs).map fun found => (l ++ found.1, found.2) := by
  induction l with
  | nil => exact Option.map_id'.symm
  | cons c l ih =>
    obtain ⟨hc, hl⟩ := forall_mem_cons.mp h
    rw [cons_append, findPair_cons (.inl hc), ih hl, Option.map_map]
    rfl

theorem findPair_eq_some {before rest : List Char} (h : findPair a b cs = some (before, rest)) :
    cs = before ++ rest ∧ ∃ tail, rest = a :: b :: tail := by
  induction cs generalizing before with
  | nil => cases h
  | cons c cs ih =>
    cases cs with
    | nil => cases h
    | cons c' cs =>
      rw [findPair] at h
      split_ifs at h with hpair
      · obtain ⟨rfl, rfl⟩ := hpair
        cases h
        exact ⟨rfl, cs, rfl⟩
      · obtain ⟨found, hfound, heq⟩ := Option.map_eq_some_iff.mp h
        cases heq
        obtain ⟨hsplit, htail⟩ := ih hfound
        exact ⟨congrArg (c :: ·) hsplit, htail⟩

/-- The next occurrence is further on if there is none at the beginning. -/
theorem length_findPair_lt {before rest : List Char} (hhead : cs.head? ≠ some a)
    (h : findPair a b cs = some (before, rest)) : rest.length < cs.length := by
  obtain ⟨rfl, tail, rfl⟩ := findPair_eq_some h
  cases before with
  | nil => exact absurd rfl hhead
  | cons c before => simp only [cons_append, length_cons, length_append]; omega

end Find

/-! ### Accumulation vectors -/

namespace SparseVector

variable {α : Type}

/-- The vector of `values` at the indices from zero on. -/
def dense (values : List α) : SparseVector α where
  domainSize := BitVec.ofNat 64 values.length
  indices := (List.range values.length).map (BitVec.ofNat 64)
  values := values
  length_eq := by rw [length_map, length_range]

end SparseVector

variable (J)

/-- `group_element_from_json`. -/
def groupElementFromJson (cs : List Char) : Except Fault (Point K) := do
  let (p, _) ← groupElementReadJson J cs
  return p

/-- `accumulation_vector_to_json`. The number of points is an `unsigned`. -/
def accumulationVectorToJson (v : AccumulationVector (Point K)) : List Char :=
  let vectLength : BitVec 32 := BitVec.ofNat 32 (v.rest.indices.length + 1)
  '[' :: (groupElementWriteJson J v.first ++
    ((v.rest.values.take (vectLength - 1).toNat).flatMap
      (fun p => ',' :: ' ' :: groupElementWriteJson J p) ++ [']']))

/-- What `accumulation_vector_from_json` throws. -/
def invalidAccumulationVector : Fault := .exception "invalid accumulation vector string"

/-- The point at the beginning of a text, up to the next quotation mark before a closing bracket,
and the text from there on. -/
def elementFromJson (cs : List Char) : Except Fault (Point K × List Char) :=
  match findPair '"' ']' cs with
  | none => .error invalidAccumulationVector
  | some (before, rest) => do
    let p ← groupElementFromJson J (before ++ ['"', ']'])
    return (p, rest)

theorem elementFromJson_eq_ok {cs rest : List Char} {p : Point K}
    (h : elementFromJson J cs = .ok (p, rest)) :
    rest.length ≤ cs.length ∧ rest.head? = some '"' := by
  rw [elementFromJson] at h
  split at h
  · cases h
  · next hfind =>
    obtain ⟨p', -, hp'⟩ := Except.bind_eq_ok.mp h
    cases hp'
    obtain ⟨rfl, tail, rfl⟩ := findPair_eq_some hfind
    exact ⟨by simp only [length_append]; omega, rfl⟩

/-- The remaining elements, from the beginning of the first of them on: `do … while`. -/
def restFromJson (cs : List Char) : Except Fault (List (Point K)) :=
  match helement : elementFromJson J cs with
  | .error e => .error e
  | .ok (p, rest) =>
    match hfind : findPair '[' '"' rest with
    | none => .ok [p]
    | some (_, next) =>
      have : next.length < cs.length := by
        obtain ⟨hle, hhead⟩ := elementFromJson_eq_ok J helement
        exact (length_findPair_lt (by rw [hhead]; decide) hfind).trans_le hle
      do
        let ps ← restFromJson next
        return p :: ps
termination_by cs.length

/-- `accumulation_vector_from_json`. If there is no second element, the first pass of the loop
searches from `npos` on and finds nothing. -/
def accumulationVectorFromJson (cs : List Char) :
    Except Fault (AccumulationVector (Point K)) := do
  if cs.length < 4 then throw invalidAccumulationVector
  match findPair '[' '"' cs with
  | none => throw invalidAccumulationVector
  | some (_, start) =>
    let (front, rest) ← elementFromJson J start
    match findPair '[' '"' rest with
    | none => throw invalidAccumulationVector
    | some (_, next) =>
      let values ← restFromJson J next
      return ⟨front, .dense values⟩

/-! ### Round trip -/

variable {J}

omit [CommRing K] [DecidableEq K] in
theorem hex_ne_quote (x : K) : ∀ c ∈ J.hex x, c ≠ '"' := fun c hc =>
  ne_quote_of_isAlphanum (J.isAlphanum_hex x c hc)

omit [CommRing K] [DecidableEq K] in
/-- The quotation marks of two coordinates, of which only the last is before a bracket. -/
theorem findPair_coordinates (x y : K) (rest : List Char) :
    findPair '"' ']' ('[' :: (J.write x ++ ',' :: (J.write y ++ ']' :: rest))) =
      some ('[' :: (J.write x ++ ',' :: '"' :: J.hex y), '"' :: ']' :: rest) := by
  have hlast : findPair '"' ']' (J.hex y ++ '"' :: ']' :: rest) =
      some (J.hex y, '"' :: ']' :: rest) := by
    rw [findPair_append (hex_ne_quote y), findPair_self, Option.map_some, append_nil]
  have hopen (z : K) (cs : List Char) : (J.hex z ++ '"' :: cs).head? ≠ some ']' := by
    cases hz : J.hex z with
    | nil => exact of_decide_eq_true rfl
    | cons c l =>
      have hc : c.isAlphanum = true := J.isAlphanum_hex z c (hz ▸ mem_cons_self)
      rintro ⟨⟩
      exact absurd hc (by decide)
  simp only [JsonField.write, cons_append, append_assoc, nil_append]
  rw [findPair_cons (.inl (by decide)), findPair_cons (.inr (hopen x _)),
    findPair_append (hex_ne_quote x), findPair_cons (.inr (by simp)),
    findPair_cons (.inl (by decide)), findPair_cons (.inr (hopen y _)), hlast]
  rfl

/-- A point at the beginning of a text. -/
theorem elementFromJson_write {p : Point K} (hp : p ≠ .affine 0 1) (rest : List Char) :
    elementFromJson J (groupElementWriteJson J p ++ rest) = .ok (p, '"' :: ']' :: rest) := by
  obtain ⟨x, y, hxy⟩ : ∃ x y, p.toAffineCoordinates = (x, y) := ⟨_, _, rfl⟩
  have hwrite : groupElementWriteJson J p =
      '[' :: (J.write x ++ ',' :: '"' :: J.hex y) ++ ['"', ']'] := by
    simp [groupElementWriteJson, hxy, JsonField.write]
  have hfind : findPair '"' ']' (groupElementWriteJson J p ++ rest) =
      some ('[' :: (J.write x ++ ',' :: '"' :: J.hex y), '"' :: ']' :: rest) := by
    rw [← findPair_coordinates]
    simp [groupElementWriteJson, hxy]
  have hread : groupElementReadJson J (groupElementWriteJson J p) = .ok (p, []) := by
    have h := (reads_groupElementJson_iff J).mpr hp []
    rwa [append_nil] at h
  simp only [elementFromJson, hfind, groupElementFromJson, ← hwrite, hread, Except.ok_bind]
  rfl

omit [DecidableEq K] in
/-- The next point starts with the next bracket. -/
theorem findPair_next (p : Point K) (rest : List Char) :
    findPair '[' '"' ('"' :: ']' :: ',' :: ' ' :: (groupElementWriteJson J p ++ rest)) =
      some (['"', ']', ',', ' '], groupElementWriteJson J p ++ rest) := rfl

/-- After the last point the loop ends. -/
theorem restFromJson_of_none {cs rest : List Char} {p : Point K}
    (helement : elementFromJson J cs = .ok (p, rest)) (hfind : findPair '[' '"' rest = none) :
    restFromJson J cs = .ok [p] := by
  rw [restFromJson]
  split
  · next h => cases helement.symm.trans h
  · next h =>
    cases helement.symm.trans h
    split
    · rfl
    · next h' => cases hfind.symm.trans h'

/-- The next pass starts with the next bracket. -/
theorem restFromJson_of_some {cs rest before next : List Char} {p : Point K}
    (helement : elementFromJson J cs = .ok (p, rest))
    (hfind : findPair '[' '"' rest = some (before, next)) :
    restFromJson J cs = (restFromJson J next >>= fun ps => .ok (p :: ps)) := by
  rw [restFromJson]
  split
  · next h => cases helement.symm.trans h
  · next h =>
    cases helement.symm.trans h
    split
    · next h' => cases hfind.symm.trans h'
    · next h' =>
      cases hfind.symm.trans h'
      rfl

variable (J) in
/-- Points after the first one, and the closing bracket. -/
def elementsText (ps : List (Point K)) : List Char :=
  ps.flatMap (fun p => ',' :: ' ' :: groupElementWriteJson J p) ++ [']']

omit [DecidableEq K] in
theorem elementsText_cons (p : Point K) (ps : List (Point K)) :
    elementsText J (p :: ps) =
      ',' :: ' ' :: (groupElementWriteJson J p ++ elementsText J ps) := by
  simp [elementsText]

/-- The remaining points, separated by commas. -/
theorem restFromJson_write {p : Point K} {ps : List (Point K)}
    (hps : ∀ q ∈ p :: ps, q ≠ .affine 0 1) :
    restFromJson J (groupElementWriteJson J p ++ elementsText J ps) = .ok (p :: ps) := by
  induction ps generalizing p with
  | nil => exact restFromJson_of_none (elementFromJson_write (hps p mem_cons_self) _) rfl
  | cons q ps ih =>
    obtain ⟨hp, hqs⟩ := forall_mem_cons.mp hps
    have helement := elementFromJson_write (J := J) hp (elementsText J (q :: ps))
    rw [elementsText_cons] at helement
    rw [elementsText_cons, restFromJson_of_some helement (findPair_next q _), ih hqs]
    rfl

/-- The first point and the loop over the others. -/
theorem accumulationVectorFromJson_write {p : Point K} {ps : List (Point K)}
    (hps : ∀ q ∈ p :: ps, q ≠ .affine 0 1) :
    accumulationVectorFromJson J ('[' :: (groupElementWriteJson J p ++ elementsText J ps)) =
      if ps = [] then .error invalidAccumulationVector else .ok ⟨p, .dense ps⟩ := by
  obtain ⟨hp, hqs⟩ := forall_mem_cons.mp hps
  have hlength :
      ¬ ('[' :: (groupElementWriteJson J p ++ elementsText J ps)).length < 4 := by
    simp only [groupElementWriteJson, JsonField.write, elementsText, length_cons,
      length_append, length_nil]
    omega
  have hstart : findPair '[' '"' ('[' :: (groupElementWriteJson J p ++ elementsText J ps)) =
      some (['['], groupElementWriteJson J p ++ elementsText J ps) := rfl
  have helement := elementFromJson_write (J := J) hp (elementsText J ps)
  cases ps with
  | nil =>
    have hnext : findPair '[' '"' ('"' :: ']' :: elementsText J []) = none := rfl
    simp only [accumulationVectorFromJson, if_neg hlength, hstart, helement, hnext,
      Except.ok_bind, if_pos]
    rfl
  | cons q ps =>
    have hnext := findPair_next (J := J) q (elementsText J ps)
    rw [← elementsText_cons] at hnext
    simp only [accumulationVectorFromJson, if_neg hlength, hstart, helement, hnext,
      restFromJson_write hqs, Except.ok_bind, if_neg (cons_ne_nil q ps)]
    rfl

/-- An accumulation vector is read back if there is a point after the first one, the number of these
fits into 32 bits, and they are at the first indices. -/
theorem accumulationVector_roundTrip_iff {v : AccumulationVector (Point K)}
    (hpoints : ∀ p ∈ v.first :: v.rest.values, p ≠ .affine 0 1) :
    accumulationVectorFromJson J (accumulationVectorToJson J v) = .ok v ↔
      v.rest.values ≠ [] ∧ v.rest.values.length < 2 ^ 32 ∧ v.rest = .dense v.rest.values := by
  set written := v.rest.values.take (v.rest.values.length % 2 ^ 32) with hwritten
  have hjson : accumulationVectorToJson J v =
      '[' :: (groupElementWriteJson J v.first ++ elementsText J written) := by
    have hcount : (BitVec.ofNat 32 (v.rest.indices.length + 1) - 1).toNat =
        v.rest.values.length % 2 ^ 32 := by
      have hone : (1 : BitVec 32).toNat = 1 := rfl
      rw [v.rest.length_eq, BitVec.toNat_sub, BitVec.toNat_ofNat, hone]
      omega
    rw [accumulationVectorToJson, hcount]
    rfl
  have hps : ∀ q ∈ v.first :: written, q ≠ .affine 0 1 := fun q hq =>
    hpoints q (cons_subset_cons _ (take_subset _ _) hq)
  rw [hjson, accumulationVectorFromJson_write hps]
  constructor
  · intro h
    split_ifs at h with hnil
    have hrest : v.rest = .dense written :=
      (congrArg AccumulationVector.rest (Except.ok.inj h)).symm
    have hvalues : written = v.rest.values := congrArg SparseVector.values hrest.symm
    have hlength := congrArg List.length hvalues
    rw [hwritten, length_take] at hlength
    have hlt : v.rest.values.length % 2 ^ 32 < 2 ^ 32 := Nat.mod_lt _ (by decide)
    rw [hvalues] at hnil hrest
    exact ⟨hnil, by omega, hrest⟩
  · rintro ⟨hne, hlt, hdense⟩
    have hall : written = v.rest.values := by
      rw [hwritten, Nat.mod_eq_of_lt hlt, take_length]
    rw [hall, if_neg hne, ← hdense]

variable (J) in
/-- **JSON vectors.** Without the point whose coordinates stand for the identity, an accumulation
vector is read back if and only if it is dense and has at least one and less than 2^32 further
points. Primary inputs are read back if and only if there is one. -/
theorem jsonVectors_roundTrip_iff {F : Type} (S : JsonField F) {v : AccumulationVector (Point K)}
    (hpoints : ∀ p ∈ v.first :: v.rest.values, p ≠ .affine 0 1) (publicInputs : List F) :
    (accumulationVectorFromJson J (accumulationVectorToJson J v) = .ok v ↔
      v.rest.values ≠ [] ∧ v.rest.values.length < 2 ^ 32 ∧ v.rest = .dense v.rest.values) ∧
    (primaryInputsReadJson S (primaryInputsWriteJson S publicInputs) = .ok (publicInputs, []) ↔
      publicInputs ≠ []) :=
  ⟨accumulationVector_roundTrip_iff hpoints, primaryInputs_roundTrip_iff publicInputs⟩

/-- Coordinates of ALT-BN128 as hexadecimal numbers of 32 bytes. -/
def altBN128Json : JsonField (ZMod altBN128Modulus) := residueJson altBN128Modulus 32 (by decide)

theorem altBN128_generator_ne :
    (Point.affine 1 2 : Point (ZMod altBN128Modulus)) ≠ .affine 0 1 := by
  intro h
  have hx : ((1 : ℕ) : ZMod altBN128Modulus) = 0 := by exact_mod_cast (Point.affine.inj h).1
  exact absurd ((ZMod.natCast_eq_zero_iff 1 altBN128Modulus).mp hx) (by decide)

/-- A vector of two points and a list of one input. -/
theorem jsonVectors_roundTrip_two :
    accumulationVectorFromJson altBN128Json
        (accumulationVectorToJson altBN128Json ⟨.affine 1 2, .dense [.identity]⟩) =
      .ok ⟨.affine 1 2, .dense [.identity]⟩ ∧
    primaryInputsReadJson altBN128Json (primaryInputsWriteJson altBN128Json [7]) =
      .ok ([7], []) := by
  have hpoints : ∀ p ∈ ([.affine 1 2, .identity] : List (Point (ZMod altBN128Modulus))),
      p ≠ .affine 0 1 := by
    rw [forall_mem_cons, forall_mem_singleton]
    exact ⟨altBN128_generator_ne, nofun⟩
  obtain ⟨hvector, hinputs⟩ := jsonVectors_roundTrip_iff altBN128Json altBN128Json
    (v := ⟨.affine 1 2, .dense [.identity]⟩) hpoints [7]
  exact ⟨hvector.mpr ⟨cons_ne_nil _ _, by decide, rfl⟩, hinputs.mpr (cons_ne_nil _ _)⟩

/-- A vector of one point and an empty list of inputs are not read back. -/
theorem jsonVectors_not_read_back :
    accumulationVectorFromJson altBN128Json
        (accumulationVectorToJson altBN128Json ⟨.affine 1 2, .dense []⟩) =
      .error invalidAccumulationVector ∧
    ∃ e, primaryInputsReadJson altBN128Json (primaryInputsWriteJson altBN128Json []) =
      .error e :=
  ⟨accumulationVectorFromJson_write (forall_mem_singleton.mpr altBN128_generator_ne),
    primaryInputsReadJson_write_nil⟩

end Zeth.Serialization
