import Mathlib.NumberTheory.LucasPrimality
import Zeth.Foundation.Numerals

/-!
# Certificates of primality

By Lucas's test (`lucas_primality`) a number is prime if some element has order `p - 1` modulo `p`,
which is read off from the prime factors of `p - 1`. A certificate is a list of such tests, each with
the factors of `p - 1` among the numbers already known to be prime. Powers modulo `p` are computed
by squaring (`LucasCertificate.powMod`), so that a certificate can be evaluated.

## Main definitions

* `LucasCertificate.powMod`, `LucasCertificate.Entry.check`, `LucasCertificate.check`.

## Main results

* `LucasCertificate.cast_powMod`, `LucasCertificate.prime_of_check`.
-/

namespace LucasCertificate

/-- The power of `a` modulo `m`, by squaring; the first argument bounds the length of the exponent
in bits. -/
def powMod (m : ℕ) : ℕ → ℕ → ℕ → ℕ
  | 0, _, _ => 1
  | bits + 1, a, k =>
    let square := powMod m bits (a * a % m) (k / 2)
    if k % 2 = 0 then square else a * square % m

theorem cast_powMod (m : ℕ) {bits a k : ℕ} (hk : k < 2 ^ bits) :
    (powMod m bits a k : ZMod m) = (a : ZMod m) ^ k := by
  induction bits generalizing a k with
  | zero =>
    obtain rfl : k = 0 := by simpa using hk
    simp [powMod]
  | succ bits ih =>
    have hsquare : (powMod m bits (a * a % m) (k / 2) : ZMod m) = (a : ZMod m) ^ (2 * (k / 2)) := by
      rw [ih (by omega), ZMod.natCast_mod, Nat.cast_mul, ← sq, ← pow_mul]
    simp only [powMod]
    split_ifs with hparity
    · rw [hsquare, Nat.mul_div_cancel' (Nat.dvd_of_mod_eq_zero hparity)]
    · rw [ZMod.natCast_mod, Nat.cast_mul, hsquare, ← pow_succ']
      congr 1
      omega

/-- A number, an element of order `p - 1` modulo it, and the prime factors of `p - 1` with their
exponents. -/
structure Entry where
  p : ℕ
  a : ℕ
  factors : List (ℕ × ℕ)

/-- Lucas's test, for exponents of the given length and factors among the given primes. -/
def Entry.check (bits : ℕ) (primes : List ℕ) (t : Entry) : Bool :=
  t.p < 2 ^ bits && t.factors.all (fun f => primes.contains f.1) &&
    (t.factors.map fun f => f.1 ^ f.2).prod == t.p - 1 &&
    powMod t.p bits t.a (t.p - 1) % t.p == 1 &&
    t.factors.all fun f => powMod t.p bits t.a ((t.p - 1) / f.1) % t.p != 1

/-- The tests of a certificate in turn, each with the primes established before it. -/
def check (bits : ℕ) : List ℕ → List Entry → Bool
  | _, [] => true
  | primes, t :: ts => t.check bits primes && check bits (t.p :: primes) ts

variable {bits : ℕ} {primes : List ℕ}

theorem Entry.prime_of_check {t : Entry} (hprimes : ∀ l ∈ primes, l.Prime)
    (h : t.check bits primes = true) : t.p.Prime := by
  simp only [Entry.check, Bool.and_eq_true, decide_eq_true_eq, List.all_eq_true, beq_iff_eq,
    bne_iff_ne, List.contains_iff_mem] at h
  obtain ⟨⟨⟨⟨hlt, hmem⟩, hprod⟩, hone⟩, hne⟩ := h
  have hcast (k : ℕ) (hk : k ≤ t.p - 1) :
      (t.a : ZMod t.p) ^ k = 1 ↔ powMod t.p bits t.a k % t.p = 1 % t.p := by
    have hbits : k < 2 ^ bits := by omega
    rw [← cast_powMod t.p hbits, ← Nat.cast_one, ZMod.natCast_eq_natCast_iff']
  have hp : 1 % t.p = 1 := by
    rw [← hone, Nat.mod_mod]
  refine lucas_primality t.p t.a ((hcast _ le_rfl).mpr (hone.trans hp.symm)) fun l hl hdvd => ?_
  -- A prime factor of `p - 1` divides one of the listed powers, so it is the listed prime.
  rw [← hprod, hl.prime.dvd_prod_iff] at hdvd
  obtain ⟨_, hpow, hdvd⟩ := hdvd
  obtain ⟨f, hf, rfl⟩ := List.mem_map.mp hpow
  obtain rfl := (Nat.prime_dvd_prime_iff_eq hl (hprimes _ (hmem f hf))).mp
    (hl.dvd_of_dvd_pow hdvd)
  rw [Ne, hcast _ (Nat.div_le_self _ _), hp]
  exact hne f hf

/-- Every number tested by a certificate is prime. -/
theorem prime_of_check {ts : List Entry} (hprimes : ∀ l ∈ primes, l.Prime)
    (h : check bits primes ts = true) : ∀ t ∈ ts, t.p.Prime := by
  induction ts generalizing primes with
  | nil => simp
  | cons t ts ih =>
    rw [check, Bool.and_eq_true] at h
    have ht := Entry.prime_of_check hprimes h.1
    rw [List.forall_mem_cons]
    exact ⟨ht, ih (List.forall_mem_cons.mpr ⟨ht, hprimes⟩) h.2⟩

end LucasCertificate
