import Mathlib.Algebra.Field.ZMod
import Zeth.Contract.AltBN128
import Zeth.Foundation.Limbs
import Zeth.Mpc.PowersOfTau
import Zeth.Serialization.GroupElement

/-!
# Files of powers of tau

The output of the first phase of the MPC comes in files of another program
(`libzeth/mpc/groth16/powersoftau_utils.tcc` and `powersoftau_utils.cpp`). Numbers are written with
the most significant byte first. An element `c₀ + c₁ u` of the quadratic extension is written as the
one number `c₁ q + c₀` of twice as many limbs, which is put together by multiplying with one limb of
`c₁` after the other. After each of these steps the limbs above are still zero, so that the limb
carried out has a place of its own; this is what the assertions of the source check. The number is
taken apart again by a division by `q`.

Elements of the prime field are stored as their products with `R = 2 ^ (64 n)`; the product of
stored numbers divided by `R` is that of the library. An assertion that fails is an error here, and
so is a stream that ends early.

## Main definitions

* `Mpc.toMontgomeryRepr`, `Mpc.fromMontgomeryRepr`.
* `Mpc.writePowersoftauFp2`, `Mpc.readPowersoftauFp2`.
* `Mpc.writePowersoftauG1`, `Mpc.writePowersoftauG2`, `Mpc.powersoftauWrite`,
  `Mpc.powersoftauLoad`: points and files for ALT-BN128.

## Main results

* `Mpc.writePowersoftauFp2_eq`, `Mpc.reads_powersoftauFp2`.
* `Mpc.powersoftau_roundTrip`.
-/

namespace Zeth.Mpc

open ByteString Limbs Serialization List

/-! ### Field elements -/

section Fields

variable (n q : ℕ) [Fact q.Prime]

/-- `mul_reduce` on stored numbers. -/
def mulReduce (a b : ℕ) : ℕ := ((a : ZMod q) * b * ((2 ^ 64) ^ n)⁻¹).val

/-- `mont_repr` of an element. -/
def montRepr (x : ZMod q) : ℕ := (x * (2 ^ 64) ^ n).val

/-- The element with a given `mont_repr`. -/
def ofMontRepr (a : ℕ) : ZMod q := a * ((2 ^ 64) ^ n)⁻¹

/-- `Rsquared`. -/
def rsquared : ℕ := (((2 ^ 64) ^ n) ^ 2 : ZMod q).val

/-- `to_montgomery_repr`, on the number that has been put into `mont_repr`. -/
def toMontgomeryRepr (a : ℕ) : ZMod q := ofMontRepr n q (mulReduce n q a (rsquared n q))

/-- `from_montgomery_repr`, with the number that is left in `mont_repr`. -/
def fromMontgomeryRepr (x : ZMod q) : ℕ := mulReduce n q 1 (montRepr n q x)

variable {n q}

theorem radix_ne_zero (hodd : q ≠ 2) : ((2 ^ 64) ^ n : ZMod q) ≠ 0 := by
  have htwo : (2 : ZMod q) ≠ 0 := by
    intro h
    have hdvd : q ∣ 2 := (ZMod.natCast_eq_zero_iff 2 q).mp h
    exact hodd ((Nat.prime_dvd_prime_iff_eq Fact.out Nat.prime_two).mp hdvd)
  exact pow_ne_zero _ (pow_ne_zero _ htwo)

theorem fromMontgomeryRepr_eq (hodd : q ≠ 2) (x : ZMod q) : fromMontgomeryRepr n q x = x.val := by
  rw [fromMontgomeryRepr, mulReduce, montRepr, ZMod.natCast_zmod_val, Nat.cast_one, one_mul,
    mul_inv_cancel_right₀ (radix_ne_zero hodd)]

theorem toMontgomeryRepr_eq (hodd : q ≠ 2) (a : ℕ) : toMontgomeryRepr n q a = a := by
  have hR := radix_ne_zero (n := n) hodd
  rw [toMontgomeryRepr, ofMontRepr, mulReduce, rsquared, ZMod.natCast_zmod_val,
    ZMod.natCast_zmod_val]
  field_simp

/-! ### Elements of the prime field -/

variable (n q)

/-- `write_powersoftau_fp`. -/
def writePowersoftauFp (fp : ZMod q) : Bytes :=
  (toBytes (Limbs.ofNat n (fromMontgomeryRepr n q fp))).reverse

/-- `read_powersoftau_fp`. -/
def readPowersoftauFp : Reader Fault Byte (ZMod q) := do
  let bytes ← Reader.takeN .endOfStream (8 * n)
  return toMontgomeryRepr n q (value (ofBytes n bytes.reverse))

variable {n q}

/-- What is read from the bytes of some limbs in the reverse order. -/
theorem reads_takeN_toBytes (l : List Limb) :
    Reads (Reader.takeN Fault.endOfStream (8 * l.length)) (toBytes l).reverse
      (toBytes l).reverse := by
  have h := Reads.takeN Fault.endOfStream (toBytes l).reverse
  rwa [length_reverse, length_toBytes] at h

theorem reads_powersoftauFp (hodd : q ≠ 2) (hq : q < (2 ^ 64) ^ n) (fp : ZMod q) :
    Reads (readPowersoftauFp n q) (writePowersoftauFp n q fp) fp := by
  have htake := reads_takeN_toBytes (Limbs.ofNat n (fromMontgomeryRepr n q fp))
  rw [length_ofNat] at htake
  refine htake.map ?_
  have hlimbs := ofBytes_toBytes (Limbs.ofNat n (fromMontgomeryRepr n q fp))
  rw [length_ofNat] at hlimbs
  rw [reverse_reverse, hlimbs, fromMontgomeryRepr_eq hodd,
    value_ofNat_of_lt (fp.val_lt.trans hq), toMontgomeryRepr_eq hodd, ZMod.natCast_zmod_val]

/-! ### Elements of the quadratic extension -/

/-- One pass of the loop of `write_powersoftau_fp2`. -/
def addRow (modulus : List Limb) (i : ℕ) (limb : Limb) (packed : List Limb) :
    Except String (List Limb) := do
  let n := modulus.length
  let (row, carryout) := mpnAddmul1 ((packed.drop i).take n) modulus limb
  let packed := packed.take i ++ row ++ packed.drop (i + n)
  if packed[n + i]? ≠ some 0 then throw "assert(packed.data[n + i] == 0)"
  let (high, carryout) := mpnAdd1 (packed.drop (n + i)) carryout
  if carryout ≠ 0 then throw "assert(carryout == 0)"
  return packed.take (n + i) ++ high

/-- The loop of `write_powersoftau_fp2`, from `i` on with the limbs of `c1` that are left. -/
def addRows (modulus : List Limb) : ℕ → List Limb → List Limb → Except String (List Limb)
  | _, [], packed => .ok packed
  | i, limb :: limbs, packed => do
    let packed ← addRow modulus i limb packed
    addRows modulus (i + 1) limbs packed

variable (n q)

/-- `write_powersoftau_fp2`. -/
def writePowersoftauFp2 (fp2 : ZMod q × ZMod q) : Except String Bytes := do
  let c0 := Limbs.ofNat n (fromMontgomeryRepr n q fp2.1)
  let c1 := Limbs.ofNat n (fromMontgomeryRepr n q fp2.2)
  let packed ← addRows (Limbs.ofNat n q) 0 c1 (c0 ++ List.replicate n 0)
  return (toBytes packed).reverse

/-- `read_powersoftau_fp2`. -/
def readPowersoftauFp2 : Reader Fault Byte (ZMod q × ZMod q) := do
  let bytes ← Reader.takeN .endOfStream (8 * (2 * n))
  match mpnTdivQr (ofBytes (2 * n) bytes.reverse) (Limbs.ofNat n q) with
  | none => throw (.exception "mpn_tdiv_qr")
  | some (c1, c0) =>
    return (toMontgomeryRepr n q (value c0), toMontgomeryRepr n q (value (c1.take n)))

variable {n q}

/-- A pass takes one more limb into use, and leaves those above zero. -/
theorem addRow_eq_ok {modulus low : List Limb} {i k : ℕ} (hlow : low.length = modulus.length + i)
    (limb : Limb) :
    ∃ low' : List Limb, addRow modulus i limb (low ++ List.replicate (k + 1) 0) =
        .ok (low' ++ List.replicate k 0) ∧ low'.length = modulus.length + (i + 1) ∧
      value low' = value low + (2 ^ 64) ^ i * (value modulus * limb.toNat) := by
  -- the limbs below the row, and the row
  obtain ⟨below, row, rfl, hbelow, hrow⟩ : ∃ below row, low = below ++ row ∧ below.length = i ∧
      row.length = modulus.length :=
    ⟨low.take i, low.drop i, (take_append_drop i low).symm, by
      rw [length_take]; omega, by rw [length_drop]; omega⟩
  subst hbelow
  have htake : ((below ++ row ++ List.replicate (k + 1) 0).drop below.length).take modulus.length =
      row := by
    rw [append_assoc, drop_left, take_left' hrow]
  have hlower : (below ++ row ++ List.replicate (k + 1) 0).take below.length = below := by
    rw [append_assoc, take_left]
  have hupper : (below ++ row ++ List.replicate (k + 1) (0 : Limb)).drop
      (below.length + modulus.length) = List.replicate (k + 1) 0 := by
    rw [drop_left' (by rw [length_append, hrow])]
  have hvalue := value_mpnAddmul1 hrow limb
  have hlength := length_mpnAddmul1 row modulus limb
  generalize hresult : mpnAddmul1 row modulus limb = result at hvalue hlength
  obtain ⟨sum, carryout⟩ := result
  have hused : (below ++ sum).length = modulus.length + below.length := by
    rw [length_append, hlength, hrow, Nat.add_comm]
  have hzero : (below ++ sum ++ List.replicate (k + 1) (0 : Limb))[modulus.length + below.length]? =
      some 0 := by
    rw [← hused, List.getElem?_append_right le_rfl, Nat.sub_self]
    rfl
  have hhigh : (below ++ sum ++ List.replicate (k + 1) (0 : Limb)).drop
      (modulus.length + below.length) = List.replicate (k + 1) 0 := drop_left' hused
  have hkept : (below ++ sum ++ List.replicate (k + 1) (0 : Limb)).take
      (modulus.length + below.length) = below ++ sum := take_left' hused
  refine ⟨below ++ sum ++ [carryout], ?_, ?_, ?_⟩
  · simp only [addRow, htake, hresult, hlower, hupper, hzero, hhigh, mpnAdd1_replicate_zero, hkept,
      ne_eq, not_true_eq_false, if_false]
    rw [append_assoc (below ++ sum), singleton_append]
    rfl
  · rw [length_append, hused, length_singleton, Nat.add_assoc]
  · rw [append_assoc, value_append, value_append sum, value_singleton, value_append below row,
      hlength, hvalue]
    ring

/-- All passes from `i` on. -/
theorem addRows_eq_ok {modulus low limbs : List Limb} {i : ℕ}
    (hlow : low.length = modulus.length + i) :
    ∃ packed : List Limb,
      addRows modulus i limbs (low ++ List.replicate limbs.length 0) = .ok packed ∧
      packed.length = modulus.length + (i + limbs.length) ∧
      value packed = value low + (2 ^ 64) ^ i * (value modulus * value limbs) := by
  induction limbs generalizing i low with
  | nil =>
    refine ⟨low, ?_, hlow, ?_⟩
    · rw [length_nil, replicate_zero, append_nil, addRows]
    · rw [value.eq_def [], mul_zero, mul_zero, add_zero]
  | cons limb limbs ih =>
    obtain ⟨low', hstep, hlow', hvalue'⟩ := addRow_eq_ok (k := limbs.length) hlow limb
    obtain ⟨packed, hrest, hlength, hvalue⟩ := ih hlow'
    refine ⟨packed, ?_, ?_, ?_⟩
    · rw [length_cons, addRows, hstep, Except.ok_bind, hrest]
    · rw [hlength, length_cons]
      omega
    · rw [hvalue, hvalue', value, pow_succ (2 ^ 64) i]
      ring

omit [Fact q.Prime] in
theorem packed_lt {c0 c1 : ℕ} (hq : q < (2 ^ 64) ^ n) (hc0 : c0 < q) (hc1 : c1 < q) :
    c1 * q + c0 < (2 ^ 64) ^ (2 * n) := by
  calc c1 * q + c0
    _ < (c1 + 1) * q := by linarith
    _ ≤ q * q := Nat.mul_le_mul_right q hc1
    _ ≤ (2 ^ 64) ^ n * (2 ^ 64) ^ n := Nat.mul_le_mul hq.le hq.le
    _ = (2 ^ 64) ^ (2 * n) := by rw [← pow_add, two_mul]

/-- The limbs that `write_powersoftau_fp2` puts together: no assertion fails. -/
theorem addRows_fp2 (hodd : q ≠ 2) (hq : q < (2 ^ 64) ^ n) (fp2 : ZMod q × ZMod q) :
    addRows (Limbs.ofNat n q) 0 (Limbs.ofNat n (fromMontgomeryRepr n q fp2.2))
        (Limbs.ofNat n (fromMontgomeryRepr n q fp2.1) ++ List.replicate n 0) =
      .ok (Limbs.ofNat (2 * n) (fp2.2.val * q + fp2.1.val)) := by
  have hlow : (Limbs.ofNat n (fromMontgomeryRepr n q fp2.1)).length =
      (Limbs.ofNat n q).length + 0 := by
    rw [length_ofNat, length_ofNat, add_zero]
  obtain ⟨packed, hrows, hlength, hvalue⟩ :=
    @addRows_eq_ok _ _ (Limbs.ofNat n (fromMontgomeryRepr n q fp2.2)) _ hlow
  rw [length_ofNat] at hrows
  rw [length_ofNat, length_ofNat, zero_add, ← two_mul] at hlength
  rw [fromMontgomeryRepr_eq hodd, fromMontgomeryRepr_eq hodd,
    value_ofNat_of_lt (fp2.1.val_lt.trans hq), value_ofNat_of_lt (fp2.2.val_lt.trans hq),
    value_ofNat_of_lt hq, pow_zero, one_mul, add_comm, mul_comm] at hvalue
  rw [hrows, ← hvalue, ← hlength, ofNat_value]

/-- The element is written as one number. -/
theorem writePowersoftauFp2_eq (hodd : q ≠ 2) (hq : q < (2 ^ 64) ^ n) (fp2 : ZMod q × ZMod q) :
    writePowersoftauFp2 n q fp2 = .ok (toBig (8 * (2 * n)) (fp2.2.val * q + fp2.1.val)) := by
  have hlt := packed_lt hq fp2.1.val_lt fp2.2.val_lt
  have hbytes := reverse_toBytes (Limbs.ofNat (2 * n) (fp2.2.val * q + fp2.1.val))
  rw [length_ofNat, value_ofNat_of_lt hlt] at hbytes
  simp only [writePowersoftauFp2, addRows_fp2 hodd hq, Except.ok_bind, hbytes]
  rfl

/-- The number is taken apart again. -/
theorem reads_powersoftauFp2 (hodd : q ≠ 2) (hq : q < (2 ^ 64) ^ n)
    (htop : (Limbs.ofNat n q).getLast?.getD 0 ≠ 0) (fp2 : ZMod q × ZMod q) :
    Reads (readPowersoftauFp2 n q) (toBig (8 * (2 * n)) (fp2.2.val * q + fp2.1.val)) fp2 := by
  set packed := fp2.2.val * q + fp2.1.val with hpacked
  have hlt : packed < (2 ^ 64) ^ (2 * n) := packed_lt hq fp2.1.val_lt fp2.2.val_lt
  have htake := reads_takeN_toBytes (Limbs.ofNat (2 * n) packed)
  have hbytes := reverse_toBytes (Limbs.ofNat (2 * n) packed)
  have hlimbs := ofBytes_toBytes (Limbs.ofNat (2 * n) packed)
  rw [length_ofNat] at htake hbytes hlimbs
  rw [value_ofNat_of_lt hlt] at hbytes
  -- the quotient and the remainder
  have hpos : 0 < q := (Fact.out : q.Prime).pos
  have hdiv : packed / q = fp2.2.val := by
    rw [hpacked, mul_comm, Nat.mul_add_div hpos, Nat.div_eq_of_lt fp2.1.val_lt, add_zero]
  have hmod : packed % q = fp2.1.val := by
    rw [hpacked, mul_comm, Nat.mul_add_mod, Nat.mod_eq_of_lt fp2.1.val_lt]
  have hquotient : mpnTdivQr (Limbs.ofNat (2 * n) packed) (Limbs.ofNat n q) =
      some (Limbs.ofNat (n + 1) fp2.2.val, Limbs.ofNat n fp2.1.val) := by
    rw [mpnTdivQr, if_neg htop, value_ofNat_of_lt hlt, value_ofNat_of_lt hq, hdiv, hmod,
      length_ofNat, length_ofNat, two_mul, Nat.add_sub_cancel]
  have hc0 : value (Limbs.ofNat n fp2.1.val) = fp2.1.val :=
    value_ofNat_of_lt (fp2.1.val_lt.trans hq)
  have hc1 : value ((Limbs.ofNat (n + 1) fp2.2.val).take n) = fp2.2.val := by
    rw [take_ofNat (Nat.le_succ n), value_ofNat_of_lt (fp2.2.val_lt.trans hq)]
  rw [← hbytes, ← append_nil (toBytes _).reverse]
  refine htake.bind ?_
  simp only [reverse_reverse, hlimbs, hquotient, hc0, hc1, toMontgomeryRepr_eq hodd,
    ZMod.natCast_zmod_val]
  exact Reads.pure fp2

end Fields

/-! ### Points -/

section Points

open AltBN128

/-- `write_powersoftau_g1`. -/
def writePowersoftauG1 : Point Fq → Bytes
  | .identity => [0]
  | .affine x y => 4 :: (writePowersoftauFp 4 q x ++ writePowersoftauFp 4 q y)

/-- `read_powersoftau_g1`. -/
def readPowersoftauG1 : Reader Fault Byte (Point Fq) := do
  let marker ← Reader.takeN .endOfStream 1
  if marker = [0] then return .identity
  else if marker = [4] then
    let x ← readPowersoftauFp 4 q
    let y ← readPowersoftauFp 4 q
    return .affine x y
  else throw (.exception "assert(false)")

/-- `write_powersoftau_g2`. -/
def writePowersoftauG2 : Point Fq2 → Except String Bytes
  | .identity => .ok [0]
  | .affine x y => do
    let x ← writePowersoftauFp2 4 q (x.re, x.im)
    let y ← writePowersoftauFp2 4 q (y.re, y.im)
    return 4 :: (x ++ y)

/-- `read_powersoftau_g2`. -/
def readPowersoftauG2 : Reader Fault Byte (Point Fq2) := do
  let marker ← Reader.takeN .endOfStream 1
  if marker = [0] then return .identity
  else if marker = [4] then
    let x ← readPowersoftauFp2 4 q
    let y ← readPowersoftauFp2 4 q
    return .affine ⟨x.1, x.2⟩ ⟨y.1, y.2⟩
  else throw (.exception "assert(false)")

theorem q_lt : q < (2 ^ 64) ^ 4 := by decide +kernel

theorem q_ne_two : q ≠ 2 := by decide +kernel

theorem q_top_limb : (Limbs.ofNat 4 q).getLast?.getD 0 ≠ 0 := by decide +kernel

theorem reads_marker (marker : Byte) :
    Reads (Reader.takeN Fault.endOfStream 1) [marker] [marker] := Reads.takeN _ [marker]

theorem reads_powersoftauG1 (p : Point Fq) :
    Reads readPowersoftauG1 (writePowersoftauG1 p) p := by
  cases p with
  | identity => exact (reads_marker 0).bind (Reads.pure _)
  | affine x y =>
    exact (reads_marker 4).bind ((reads_powersoftauFp q_ne_two q_lt x).bind
      ((reads_powersoftauFp q_ne_two q_lt y).map rfl))

/-- The bytes of a point of the second group. -/
def g2Bytes : Point Fq2 → Bytes
  | .identity => [0]
  | .affine x y => 4 :: (toBig (8 * (2 * 4)) (x.im.val * q + x.re.val) ++
      toBig (8 * (2 * 4)) (y.im.val * q + y.re.val))

theorem writePowersoftauG2_eq (p : Point Fq2) : writePowersoftauG2 p = .ok (g2Bytes p) := by
  cases p with
  | identity => rfl
  | affine x y =>
    rw [writePowersoftauG2, writePowersoftauFp2_eq q_ne_two q_lt,
      writePowersoftauFp2_eq q_ne_two q_lt]
    rfl

theorem reads_powersoftauG2 (p : Point Fq2) : Reads readPowersoftauG2 (g2Bytes p) p := by
  cases p with
  | identity => exact (reads_marker 0).bind (Reads.pure _)
  | affine x y =>
    have hx := reads_powersoftauFp2 q_ne_two q_lt q_top_limb (x.re, x.im)
    have hy := reads_powersoftauFp2 q_ne_two q_lt q_top_limb (y.re, y.im)
    rw [g2Bytes]
    generalize toBig (8 * (2 * 4)) (x.im.val * q + x.re.val) = xs at hx ⊢
    generalize toBig (8 * (2 * 4)) (y.im.val * q + y.re.val) = ys at hy ⊢
    exact (reads_marker 4).bind (hx.bind (hy.map rfl))

/-! ### Files -/

/-- `srs_powersoftau::is_well_formed`: all points are on their curves. -/
def PowersOfTau.isWellFormed (pot : PowersOfTau (Point Fq) (Point Fq2)) : Bool :=
  pot.tauPowersG1.all (Point.isWellFormed curve.b) &&
    pot.tauPowersG2.all (Point.isWellFormed twist.b) &&
    pot.alphaTauPowersG1.all (Point.isWellFormed curve.b) &&
    pot.betaTauPowersG1.all (Point.isWellFormed curve.b) && pot.betaG2.isWellFormed twist.b

/-- `G1::one()`. -/
def oneG1 : Point Fq := .affine 1 2

/-- `G2::one()`. -/
def oneG2 : Point Fq2 := .affine genG2X genG2Y

/-- `powersoftau_write`. -/
def powersoftauWrite (pot : PowersOfTau (Point Fq) (Point Fq2)) : Except String Bytes := do
  if ¬ pot.isWellFormed then throw "powersoftau (write) not well-formed"
  let n := pot.tauPowersG2.length
  let tauPowersG2 ← (pot.tauPowersG2.take n).mapM writePowersoftauG2
  let betaG2 ← writePowersoftauG2 pot.betaG2
  return List.replicate 64 0 ++ ((pot.tauPowersG1.take (2 * n - 1)).flatMap writePowersoftauG1 ++
    (tauPowersG2.flatten ++ ((pot.alphaTauPowersG1.take n).flatMap writePowersoftauG1 ++
      ((pot.betaTauPowersG1.take n).flatMap writePowersoftauG1 ++ betaG2))))

/-- An exception unless a condition holds. -/
def require (condition : Bool) (message : String) : Reader Fault Byte Unit :=
  if condition then return () else throw (.exception message)

/-- `powersoftau_load`, for a positive `n`. -/
def powersoftauLoad (n : ℕ) : Reader Fault Byte (PowersOfTau (Point Fq) (Point Fq2)) := do
  let _hash ← Reader.takeN .endOfStream 64
  let tauPowersG1 ← Reader.repeatN readPowersoftauG1 (2 * n - 1)
  require (tauPowersG1[0]? = some oneG1) "invalid powersoftau file?"
  let tauPowersG2 ← Reader.repeatN readPowersoftauG2 n
  require (tauPowersG2[0]? = some oneG2) "invalid powersoftau file?"
  let alphaTauPowersG1 ← Reader.repeatN readPowersoftauG1 n
  let betaTauPowersG1 ← Reader.repeatN readPowersoftauG1 n
  let betaG2 ← readPowersoftauG2
  let pot := ⟨tauPowersG1, tauPowersG2, alphaTauPowersG1, betaTauPowersG1, betaG2⟩
  require pot.isWellFormed "powersoftau (load) not well-formed"
  return pot

theorem reads_require {condition : Bool} (h : condition = true) (message : String) :
    Reads (require condition message) [] () := by
  rw [require, if_pos h]
  exact Reads.pure ()

/-- Points of the first group one after the other. -/
theorem reads_repeatN_G1 (ps : List (Point Fq)) :
    Reads (Reader.repeatN readPowersoftauG1 ps.length) (ps.flatMap writePowersoftauG1) ps :=
  Reads.repeatN fun p _ => reads_powersoftauG1 p

/-- Points of the second group one after the other. -/
theorem reads_repeatN_G2 (ps : List (Point Fq2)) :
    Reads (Reader.repeatN readPowersoftauG2 ps.length) (ps.flatMap g2Bytes) ps :=
  Reads.repeatN fun p _ => reads_powersoftauG2 p

/-- Powers of tau with as many entries as a file of degree `m` has, that start at the generators and
whose points are on the curves. -/
structure IsLoadable (m : ℕ) (pot : PowersOfTau (Point Fq) (Point Fq2)) : Prop where
  length_tauPowersG1 : pot.tauPowersG1.length = 2 * m - 1
  length_tauPowersG2 : pot.tauPowersG2.length = m
  length_alphaTauPowersG1 : pot.alphaTauPowersG1.length = m
  length_betaTauPowersG1 : pot.betaTauPowersG1.length = m
  tauPowersG1_zero : pot.tauPowersG1[0]? = some oneG1
  tauPowersG2_zero : pot.tauPowersG2[0]? = some oneG2
  isWellFormed : pot.isWellFormed = true

/-- The bytes of a file. -/
def potBytes (pot : PowersOfTau (Point Fq) (Point Fq2)) : Bytes :=
  List.replicate 64 0 ++ (pot.tauPowersG1.flatMap writePowersoftauG1 ++
    (pot.tauPowersG2.flatMap g2Bytes ++ (pot.alphaTauPowersG1.flatMap writePowersoftauG1 ++
      (pot.betaTauPowersG1.flatMap writePowersoftauG1 ++ g2Bytes pot.betaG2))))

variable {m : ℕ} {pot : PowersOfTau (Point Fq) (Point Fq2)}

theorem powersoftauWrite_eq (h : IsLoadable m pot) : powersoftauWrite pot = .ok (potBytes pot) := by
  have hmap : pot.tauPowersG2.mapM writePowersoftauG2 = .ok (pot.tauPowersG2.map g2Bytes) := by
    have hmap := Except.mapM_map_eq_ok writePowersoftauG2_eq pot.tauPowersG2
    rwa [map_id'] at hmap
  simp only [powersoftauWrite, h.isWellFormed, not_true_eq_false, if_false, hmap,
    writePowersoftauG2_eq, h.length_tauPowersG2, take_of_length_le h.length_tauPowersG1.le,
    take_of_length_le h.length_alphaTauPowersG1.le,
    take_of_length_le h.length_betaTauPowersG1.le,
    take_of_length_le h.length_tauPowersG2.le]
  rfl

theorem reads_powersoftauLoad (h : IsLoadable m pot) :
    Reads (powersoftauLoad m) (potBytes pot) pot := by
  have hhash := Reads.takeN Fault.endOfStream (List.replicate 64 (0 : Byte))
  have htauG1 := reads_repeatN_G1 pot.tauPowersG1
  have htauG2 := reads_repeatN_G2 pot.tauPowersG2
  have halpha := reads_repeatN_G1 pot.alphaTauPowersG1
  have hbeta := reads_repeatN_G1 pot.betaTauPowersG1
  rw [h.length_tauPowersG1] at htauG1
  rw [h.length_tauPowersG2] at htauG2
  rw [h.length_alphaTauPowersG1] at halpha
  rw [h.length_betaTauPowersG1] at hbeta
  have hfirst := reads_require (decide_eq_true h.tauPowersG1_zero) "invalid powersoftau file?"
  have hsecond := reads_require (decide_eq_true h.tauPowersG2_zero) "invalid powersoftau file?"
  have hcheck := reads_require h.isWellFormed "powersoftau (load) not well-formed"
  exact hhash.bind (htauG1.bind (hfirst.nil_bind (htauG2.bind (hsecond.nil_bind (halpha.bind
    (hbeta.bind ((reads_powersoftauG2 pot.betaG2).bind_nil
      (hcheck.bind_nil (Reads.pure pot)))))))))

/-- **Files of powers of tau.** An element of a quadratic extension is written as the number
`c₁ q + c₀`, without a failed assertion, and read back. So are powers of tau for ALT-BN128. -/
theorem powersoftau_roundTrip :
    (∀ (n q : ℕ) [Fact q.Prime], q ≠ 2 → q < (2 ^ 64) ^ n →
      (Limbs.ofNat n q).getLast?.getD 0 ≠ 0 → ∀ c₀ c₁ : ZMod q,
        writePowersoftauFp2 n q (c₀, c₁) = .ok (toBig (8 * (2 * n)) (c₁.val * q + c₀.val)) ∧
        Reads (readPowersoftauFp2 n q) (toBig (8 * (2 * n)) (c₁.val * q + c₀.val)) (c₀, c₁)) ∧
    ∀ (m : ℕ) (pot : PowersOfTau (Point Fq) (Point Fq2)), IsLoadable m pot →
      ∃ bytes, powersoftauWrite pot = .ok bytes ∧ powersoftauLoad m bytes = .ok (pot, []) := by
  constructor
  · intro n q hprime hodd hq htop c₀ c₁
    exact ⟨writePowersoftauFp2_eq hodd hq (c₀, c₁), reads_powersoftauFp2 hodd hq htop (c₀, c₁)⟩
  · intro m pot h
    refine ⟨potBytes pot, powersoftauWrite_eq h, ?_⟩
    have hload := reads_powersoftauLoad h []
    rwa [append_nil] at hload

/-- Powers of one entry, some of them the identity. -/
def samplePot : PowersOfTau (Point Fq) (Point Fq2) where
  tauPowersG1 := [oneG1]
  tauPowersG2 := [oneG2]
  alphaTauPowersG1 := [.identity]
  betaTauPowersG1 := [oneG1]
  betaG2 := .identity

theorem isLoadable_samplePot : IsLoadable 1 samplePot where
  length_tauPowersG1 := rfl
  length_tauPowersG2 := rfl
  length_alphaTauPowersG1 := rfl
  length_betaTauPowersG1 := rfl
  tauPowersG1_zero := rfl
  tauPowersG2_zero := rfl
  isWellFormed := by
    have hG1 : oneG1.isWellFormed curve.b = true := by decide +kernel
    have hG2 : oneG2.isWellFormed twist.b = true := by
      rw [oneG2, Point.isWellFormed, decide_eq_true_iff]
      exact genG2_on_twist
    simp only [PowersOfTau.isWellFormed, samplePot, all_cons, all_nil, hG1, hG2,
      Bool.and_true]
    rfl

/-- The element `1 + 2 u` for the modulus three, in one limb, and a file of degree one. -/
theorem powersoftau_roundTrip_sample :
    writePowersoftauFp2 1 3 (1, 2) = .ok (toBig 16 7) ∧
      Reads (readPowersoftauFp2 1 3) (toBig 16 7) (1, 2) ∧
      ∃ bytes, powersoftauWrite samplePot = .ok bytes ∧
        powersoftauLoad 1 bytes = .ok (samplePot, []) := by
  have htop : (Limbs.ofNat 1 3).getLast?.getD 0 ≠ 0 := by decide +kernel
  have hfp2 := powersoftau_roundTrip.1 1 3 (by norm_num) (by norm_num) htop 1 2
  exact ⟨hfp2.1, hfp2.2, powersoftau_roundTrip.2 1 samplePot isLoadable_samplePot⟩

end Points

end Zeth.Mpc
