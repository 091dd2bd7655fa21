import Mathlib.Algebra.BigOperators.Group.List.Basic
import Zeth.Foundation.Bytes

/-!
# BLAKE2s-256

The hash function of RFC 7693 on 32-bit words, unkeyed and with a digest of 32 bytes.

## Main definitions

* `Blake2s.G`, `Blake2s.round`, `Blake2s.compress`: the mixing function, a round and the
  compression function.
* `Blake2s.hash`: the digest of a byte string.

## Main results

* `Blake2s.compress_mod`: the counter has 64 bits.
* `Blake2s.length_hash`: a digest has 32 bytes.
-/

namespace Blake2s

open ByteString

/-- A word of the state. -/
abbrev Word := BitVec 32

-- Named, so that positions in the state are one term in all modules.
instance neZero_sixteen : NeZero 16 := ⟨by decide⟩

/-- The initialisation vector. -/
def IV : Vector Word 8 :=
  #v[0x6A09E667, 0xBB67AE85, 0x3C6EF372, 0xA54FF53A, 0x510E527F, 0x9B05688C, 0x1F83D9AB,
    0x5BE0CD19]

/-- The message schedule, one permutation per round. -/
def SIGMA : Vector (Vector (Fin 16) 16) 10 :=
  #v[#v[0, 1, 2, 3, 4, 5, 6, 7, 8, 9, 10, 11, 12, 13, 14, 15],
    #v[14, 10, 4, 8, 9, 15, 13, 6, 1, 12, 0, 2, 11, 7, 5, 3],
    #v[11, 8, 12, 0, 5, 2, 15, 13, 10, 14, 3, 6, 7, 1, 9, 4],
    #v[7, 9, 3, 1, 13, 12, 11, 14, 2, 6, 5, 10, 4, 0, 15, 8],
    #v[9, 0, 5, 7, 2, 4, 10, 15, 14, 1, 11, 12, 6, 8, 3, 13],
    #v[2, 12, 6, 10, 0, 11, 8, 3, 4, 13, 7, 5, 15, 14, 1, 9],
    #v[12, 5, 1, 15, 14, 13, 4, 10, 0, 7, 6, 3, 9, 2, 8, 11],
    #v[13, 11, 7, 14, 12, 1, 3, 9, 5, 0, 15, 4, 8, 6, 2, 10],
    #v[6, 15, 14, 9, 11, 3, 0, 8, 12, 2, 13, 7, 1, 4, 10, 5],
    #v[10, 2, 8, 4, 7, 6, 1, 5, 15, 11, 9, 14, 3, 12, 13, 0]]

/-! ### Compression -/

/-- The mixing function on four words and two message words. -/
def mix (a b c d x y : Word) : Word × Word × Word × Word :=
  let a1 := a + b + x
  let d1 := (d ^^^ a1).rotateRight 16
  let c1 := c + d1
  let b1 := (b ^^^ c1).rotateRight 12
  let a2 := a1 + b1 + y
  let d2 := (d1 ^^^ a2).rotateRight 8
  let c2 := c1 + d2
  let b2 := (b1 ^^^ c2).rotateRight 7
  (a2, b2, c2, d2)

/-- The mixing function at four positions of the working vector. -/
def G (v : Vector Word 16) (a b c d : Fin 16) (x y : Word) : Vector Word 16 :=
  let (a2, b2, c2, d2) := mix v[a] v[b] v[c] v[d] x y
  (((v.set a a2).set b b2).set c c2).set d d2

/-- A round: the four columns, then the four diagonals. -/
def round (m : Vector Word 16) (v : Vector Word 16) (s : Vector (Fin 16) 16) : Vector Word 16 :=
  let v := G v 0 4 8 12 m[s[0]] m[s[1]]
  let v := G v 1 5 9 13 m[s[2]] m[s[3]]
  let v := G v 2 6 10 14 m[s[4]] m[s[5]]
  let v := G v 3 7 11 15 m[s[6]] m[s[7]]
  let v := G v 0 5 10 15 m[s[8]] m[s[9]]
  let v := G v 1 6 11 12 m[s[10]] m[s[11]]
  let v := G v 2 7 8 13 m[s[12]] m[s[13]]
  G v 3 4 9 14 m[s[14]] m[s[15]]

/-- The working vector before the first round: `t` counts the bytes so far, `final` marks the
last block. -/
def initial (h : Vector Word 8) (t : ℕ) (final : Bool) : Vector Word 16 :=
  h ++ #v[IV[0], IV[1], IV[2], IV[3], IV[4] ^^^ BitVec.ofNat 32 t,
    IV[5] ^^^ BitVec.ofNat 32 (t / 2 ^ 32), if final then ~~~IV[6] else IV[6], IV[7]]

/-- The compression function. -/
def compress (h : Vector Word 8) (m : Vector Word 16) (t : ℕ) (final : Bool) : Vector Word 8 :=
  let v := SIGMA.toList.foldl (round m) (initial h t final)
  Vector.ofFn fun i : Fin 8 => h[i] ^^^ v[i.val] ^^^ v[i.val + 8]

/-- The counter has 64 bits. -/
theorem compress_mod (h : Vector Word 8) (m : Vector Word 16) (t : ℕ) (final : Bool) :
    compress h m (t % 2 ^ 64) final = compress h m t final := by
  have hlow : BitVec.ofNat 32 (t % 2 ^ 64) = BitVec.ofNat 32 t :=
    BitVec.eq_of_toNat_eq (by rw [BitVec.toNat_ofNat, BitVec.toNat_ofNat]; omega)
  have hhigh : BitVec.ofNat 32 (t % 2 ^ 64 / 2 ^ 32) = BitVec.ofNat 32 (t / 2 ^ 32) :=
    BitVec.eq_of_toNat_eq (by rw [BitVec.toNat_ofNat, BitVec.toNat_ofNat]; omega)
  rw [compress, compress, initial, initial, hlow, hhigh]

/-! ### Hashing -/

/-- Word `i` of a block of bytes, least significant byte first and zero past the end. -/
def wordAt (block : Bytes) (i : ℕ) : Word :=
  block.getD (4 * i + 3) 0 ++ block.getD (4 * i + 2) 0 ++ block.getD (4 * i + 1) 0 ++
    block.getD (4 * i) 0

/-- The message words of a block, padded with zeroes. -/
def messageWords (block : Bytes) : Vector Word 16 := Vector.ofFn fun i => wordAt block i

/-- The bytes of a word, least significant first. -/
def wordBytes (w : Word) : Bytes :=
  [w.extractLsb' 0 8, w.extractLsb' 8 8, w.extractLsb' 16 8, w.extractLsb' 24 8]

/-- The chaining value before the first block: no key, a digest of 32 bytes. -/
def initialChain : Vector Word 8 := IV.set 0 (IV[0] ^^^ 0x01010020)

/-- The number of blocks of a message; the empty message has one. -/
def numBlocks (message : Bytes) : ℕ := max 1 ((message.length + 63) / 64)

/-- The chaining value after the first `n` blocks, none of them the last. -/
def chain (message : Bytes) : ℕ → Vector Word 8
  | 0 => initialChain
  | n + 1 =>
    compress (chain message n) (messageWords ((message.drop (64 * n)).take 64)) (64 * (n + 1))
      false

/-- The BLAKE2s-256 digest of a message. -/
def hash (message : Bytes) : Bytes :=
  let n := numBlocks message - 1
  let h := compress (chain message n) (messageWords ((message.drop (64 * n)).take 64))
    message.length true
  h.toList.flatMap wordBytes

@[simp] theorem length_wordBytes (w : Word) : (wordBytes w).length = 4 := rfl

/-- A digest has 32 bytes. -/
theorem length_hash (message : Bytes) : (hash message).length = 32 := by
  simp only [hash, List.length_flatMap, length_wordBytes, List.map_const', List.sum_replicate,
    Vector.length_toList]
  rfl

-- The test vector of RFC 7693, appendix B.
example : hash [0x61, 0x62, 0x63] =
    [0x50, 0x8C, 0x5E, 0x8C, 0x32, 0x7C, 0x14, 0xE2, 0xE1, 0xA7, 0x2B, 0xA3, 0x4E, 0xEB, 0x45,
      0x2F, 0x37, 0x45, 0x8B, 0x20, 0x9E, 0xD6, 0x3A, 0x29, 0x4D, 0x99, 0x9B, 0x4C, 0x86, 0x67,
      0x59, 0x82] := by
  decide +kernel

end Blake2s
