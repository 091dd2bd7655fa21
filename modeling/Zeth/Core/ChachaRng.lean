import Mathlib.Data.Vector.Zip
import Zeth.Foundation.Bytes

/-!
# The ChaCha generator

`chacha_rng` hands out the blocks of the stream cipher ChaCha20 byte by byte
(`libzeth/core/chacha_rng.cpp`). A block is used up before the next one is made, and the number of
the block is a counter of four words: the first is the counter of the cipher, the others its nonce.
The bytes that were handed out are therefore the beginning of one stream, however they were asked
for.

The cipher is a parameter: the block of a key, a counter and a nonce. The block of a new generator
holds whatever its memory held before, and nothing of it is handed out.

## Main definitions

* `Core.Chacha20`: the cipher, `Core.Counter`: the number of a block.
* `Core.ChachaRng`: the generator with `new`, `update` and `random`.
* `Core.ChachaRng.blockAt`, `Core.ChachaRng.keystream`: the blocks one after the other.

## Main results

* `Core.Counter.succ_ofNat`: the counter counts.
* `Core.ChachaRng.random_spec`: one request, from any position of the stream.
* `Core.ChachaRng.randoms_eq_keystream`: the key of the stream is read off the seed.
-/

namespace Zeth.Core

open ByteString List

/-! ### The cipher and its counter -/

/-- The blocks of ChaCha20 for a key, a counter and the three words of a nonce. -/
abbrev Chacha20 :=
  List.Vector Byte 32 → BitVec 32 → BitVec 32 × BitVec 32 × BitVec 32 → List.Vector Byte 64

/-- `crypto_stream_chacha20_ietf_xor_ic` on a message of one block. -/
def cryptoStreamChacha20IetfXorIc (C : Chacha20) (m : List.Vector Byte 64)
    (n : BitVec 32 × BitVec 32 × BitVec 32) (ic : BitVec 32) (k : List.Vector Byte 32) :
    List.Vector Byte 64 :=
  List.Vector.zipWith (· ^^^ ·) m (C k ic n)

/-- `counter`, four words with the least significant first. -/
@[ext] structure Counter where
  word0 : BitVec 32
  word1 : BitVec 32
  word2 : BitVec 32
  word3 : BitVec 32

/-- The words of a number. -/
def Counter.ofNat (i : ℕ) : Counter where
  word0 := BitVec.ofNat 32 i
  word1 := BitVec.ofNat 32 (i / 2 ^ 32)
  word2 := BitVec.ofNat 32 (i / 2 ^ 64)
  word3 := BitVec.ofNat 32 (i / 2 ^ 96)

/-- The end of `update`: the counter with one added. -/
def Counter.succ (c : Counter) : Counter :=
  if c.word0 + 1 ≠ 0 then { c with word0 := c.word0 + 1 }
  else if c.word1 + 1 ≠ 0 then { c with word0 := c.word0 + 1, word1 := c.word1 + 1 }
  else if c.word2 + 1 ≠ 0 then
    { c with word0 := c.word0 + 1, word1 := c.word1 + 1, word2 := c.word2 + 1 }
  else ⟨c.word0 + 1, c.word1 + 1, c.word2 + 1, c.word3 + 1⟩

theorem ofNat_add_one (i : ℕ) : BitVec.ofNat 32 i + 1 = BitVec.ofNat 32 (i + 1) :=
  (BitVec.ofNat_add i 1).symm

/-- A word becomes zero when a carry leaves it. -/
theorem ofNat_add_one_ne_zero {i : ℕ} : BitVec.ofNat 32 i + 1 ≠ 0 ↔ (i + 1) % 2 ^ 32 ≠ 0 := by
  rw [ofNat_add_one, Ne, ← BitVec.toNat_inj, BitVec.toNat_ofNat]
  rfl

/-- A word that a carry reaches. -/
theorem ofNat_div_add_one {i k : ℕ} (hcarry : (i + 1) % k = 0) :
    BitVec.ofNat 32 (i / k) + 1 = BitVec.ofNat 32 ((i + 1) / k) := by
  rw [ofNat_add_one, Nat.succ_div_of_dvd (Nat.dvd_of_mod_eq_zero hcarry)]

/-- A word that no carry reaches. -/
theorem ofNat_div_of_ne {i k : ℕ} (hcarry : (i + 1) % k ≠ 0) :
    BitVec.ofNat 32 (i / k) = BitVec.ofNat 32 ((i + 1) / k) := by
  rw [Nat.succ_div_of_not_dvd fun h => hcarry (Nat.mod_eq_zero_of_dvd h)]

/-- The counter counts, modulo `2 ^ 128`. -/
theorem Counter.succ_ofNat (i : ℕ) : (Counter.ofNat i).succ = Counter.ofNat (i + 1) := by
  simp only [succ, ofNat, ofNat_add_one_ne_zero]
  -- a word is changed when all the words below it have become zero
  split_ifs with h0 h1 h2
  · exact Counter.ext (ofNat_add_one i) (ofNat_div_of_ne h0) (ofNat_div_of_ne (by omega))
      (ofNat_div_of_ne (by omega))
  · exact Counter.ext (ofNat_add_one i) (ofNat_div_add_one (not_not.mp h0))
      (ofNat_div_of_ne (by omega)) (ofNat_div_of_ne (by omega))
  · exact Counter.ext (ofNat_add_one i) (ofNat_div_add_one (not_not.mp h0))
      (ofNat_div_add_one (by omega)) (ofNat_div_of_ne (by omega))
  · exact Counter.ext (ofNat_add_one i) (ofNat_div_add_one (not_not.mp h0))
      (ofNat_div_add_one (by omega)) (ofNat_div_add_one (by omega))

/-! ### The generator -/

/-- `chacha_rng`. -/
structure ChachaRng where
  key : List.Vector Byte 32
  counter : Counter
  block : List.Vector Byte 64
  dataUsed : ℕ
  dataUsed_le : dataUsed ≤ 64

namespace ChachaRng

variable (C : Chacha20)

/-- The key of a seed: its first 32 bytes, padded with zeroes. -/
def keyOfSeed (seed : Bytes) : List.Vector Byte 32 :=
  let seedSize := min seed.length 32
  ⟨seed.take seedSize ++ List.replicate (32 - seedSize) 0, by
    rw [length_append, length_take, length_replicate]
    omega⟩

/-- The constructor. The block is not initialised. -/
def new (seed : Bytes) (block : List.Vector Byte 64) : ChachaRng where
  key := keyOfSeed seed
  counter := ⟨0, 0, 0, 0⟩
  block := block
  dataUsed := 64
  dataUsed_le := le_rfl

/-- `update`. -/
def update (g : ChachaRng) : ChachaRng where
  key := g.key
  counter := g.counter.succ
  block := cryptoStreamChacha20IetfXorIc C (List.Vector.replicate 64 0)
    (g.counter.word1, g.counter.word2, g.counter.word3) g.counter.word0 g.key
  dataUsed := 0
  dataUsed_le := Nat.zero_le 64

/-- The beginning of a pass of the loop of `random`: a block that is used up is replaced. -/
def ready (g : ChachaRng) : ChachaRng := if g.dataUsed = 64 then g.update C else g

theorem dataUsed_ready_lt (g : ChachaRng) : (g.ready C).dataUsed < 64 := by
  have hle := g.dataUsed_le
  rw [ready]
  split_ifs with h
  · exact Nat.succ_pos 63
  · omega

/-- The generator after some bytes of its block have been handed out. -/
def advance (g : ChachaRng) (toWrite : ℕ) (h : toWrite ≤ 64 - g.dataUsed) : ChachaRng :=
  { g with
    dataUsed := g.dataUsed + toWrite
    dataUsed_le := by have hle := g.dataUsed_le; omega }

/-- `random`, and the bytes that it writes. -/
def random (g : ChachaRng) (outputSize : ℕ) : ChachaRng × Bytes :=
  if outputSize = 0 then (g, [])
  else
    let ready := g.ready C
    let toWrite := min (64 - ready.dataUsed) outputSize
    let rest := random (ready.advance toWrite (min_le_left _ _)) (outputSize - toWrite)
    (rest.1, (ready.block.toList.drop ready.dataUsed).take toWrite ++ rest.2)
termination_by outputSize
decreasing_by
  have hlt := g.dataUsed_ready_lt C
  omega

/-- Requests of the given sizes one after the other, and the bytes of each. -/
def randoms (g : ChachaRng) : List ℕ → List Bytes
  | [] => []
  | size :: sizes => (g.random C size).2 :: randoms (g.random C size).1 sizes

/-! ### The stream -/

/-- Block `i` of the stream: the first word of the number `i` of 128 bits is the counter of the
cipher, the other words are the nonce. -/
def blockAt (key : List.Vector Byte 32) (i : ℕ) : List.Vector Byte 64 :=
  C key (BitVec.ofNat 32 i)
    (BitVec.ofNat 32 (i / 2 ^ 32), BitVec.ofNat 32 (i / 2 ^ 64), BitVec.ofNat 32 (i / 2 ^ 96))

/-- The first `n` bytes of the blocks one after the other; `n` blocks are more than enough. -/
def keystream (key : List.Vector Byte 32) (n : ℕ) : Bytes :=
  ((List.range n).flatMap fun i => (blockAt C key i).toList).take n

/-- The byte at a position of the stream. -/
def byteAt (key : List.Vector Byte 32) (position : ℕ) : Byte :=
  (blockAt C key (position / 64)).get ⟨position % 64, Nat.mod_lt _ (by decide)⟩

theorem keystream_eq_map (key : List.Vector Byte 32) (n : ℕ) :
    keystream C key n = (List.range n).map (byteAt C key) := by
  have hlen : ∀ l ∈ (List.range n).map (fun i => (blockAt C key i).toList), l.length = 64 := by
    intro l hl
    obtain ⟨i, -, rfl⟩ := mem_map.mp hl
    exact (blockAt C key i).toList_length
  refine ext_getElem? fun t => ?_
  rw [keystream, flatMap_def]
  by_cases ht : t < n
  · have hbyte := List.getElem?_flatten_of_length hlen (Nat.mod_lt t (by decide)) (t / 64)
    rw [Nat.div_add_mod, List.getElem?_map, List.getElem?_range (by omega)] at hbyte
    rw [List.getElem?_take_of_lt ht, hbyte, List.getElem?_map, List.getElem?_range ht]
    simp only [Option.map_some, Option.bind_some, byteAt, List.Vector.get_eq_get_toList]
    have hlt : t % 64 < (blockAt C key (t / 64)).toList.length := by
      rw [List.Vector.toList_length]
      exact Nat.mod_lt t (by decide)
    rw [List.getElem?_eq_getElem hlt]
    rfl
  · rw [List.getElem?_eq_none (by simp; omega), List.getElem?_eq_none (by simp; omega)]

/-- The generator has handed out `position` bytes of the stream of its key: some number of blocks
has been made, all but the last of them are used up, and the last one up to `dataUsed`. -/
def IsAt (g : ChachaRng) (position : ℕ) : Prop :=
  ∃ made, g.counter = Counter.ofNat made ∧ position + 64 = 64 * made + g.dataUsed ∧
    (g.dataUsed ≠ 64 → g.block = blockAt C g.key (made - 1))

variable {C}

theorem isAt_new (seed : Bytes) (block : List.Vector Byte 64) : (new seed block).IsAt C 0 :=
  ⟨0, rfl, rfl, fun h => absurd rfl h⟩

/-- The block made by `update` is the one whose number is the counter. -/
theorem block_update {g : ChachaRng} {made : ℕ} (h : g.counter = Counter.ofNat made) :
    (g.update C).block = blockAt C g.key made := by
  have hblock : (g.update C).block = List.Vector.zipWith (· ^^^ ·) (List.Vector.replicate 64 0)
      (blockAt C g.key made) := by
    rw [update, h]
    rfl
  rw [hblock]
  refine List.Vector.ext fun i => ?_
  rw [List.Vector.zipWith_get, List.Vector.get_replicate]
  exact BitVec.zero_xor

/-- A generator that is ready has the block of its position. -/
theorem IsAt.ready {g : ChachaRng} {position : ℕ} (h : g.IsAt C position) :
    (g.ready C).IsAt C position ∧ (g.ready C).key = g.key ∧
      (g.ready C).dataUsed = position % 64 ∧
      (g.ready C).block = blockAt C g.key (position / 64) := by
  obtain ⟨made, hcounter, hposition, hblock⟩ := h
  have hle := g.dataUsed_le
  rw [ChachaRng.ready]
  split_ifs with hused
  · have hupdate := block_update (C := C) hcounter
    have hmade : position / 64 = made := by omega
    refine ⟨⟨made + 1, ?_, ?_, fun _ => hupdate⟩, rfl, ?_, ?_⟩
    · rw [update, hcounter, Counter.succ_ofNat]
    · change position + 64 = 64 * (made + 1) + 0
      omega
    · change 0 = position % 64
      omega
    · rw [hupdate, hmade]
  · have hmade : position / 64 = made - 1 := by omega
    refine ⟨⟨made, hcounter, hposition, hblock⟩, rfl, by omega, ?_⟩
    rw [hblock hused, hmade]

/-- The rest of a block is a piece of the stream. -/
theorem take_drop_blockAt (key : List.Vector Byte 32) {position n : ℕ}
    (hn : n ≤ 64 - position % 64) :
    ((blockAt C key (position / 64)).toList.drop (position % 64)).take n =
      (List.range' position n).map (byteAt C key) := by
  have hlt : position % 64 < 64 := Nat.mod_lt _ (by decide)
  refine ext_getElem (by simp; omega) fun t ht ht' => ?_
  rw [length_map, length_range'] at ht'
  have hdiv : (position + 1 * t) / 64 = position / 64 := by omega
  have hmod : (position + 1 * t) % 64 = position % 64 + t := by omega
  rw [getElem_take, getElem_drop, getElem_map, getElem_range', byteAt,
    List.Vector.get_eq_get_toList, get_eq_getElem]
  simp only [hdiv, Fin.val_cast, hmod]

/-- One request, from any position of the stream. -/
theorem random_spec {g : ChachaRng} {position : ℕ} (h : g.IsAt C position) (outputSize : ℕ) :
    (g.random C outputSize).2 = (List.range' position outputSize).map (byteAt C g.key) ∧
      (g.random C outputSize).1.IsAt C (position + outputSize) ∧
      (g.random C outputSize).1.key = g.key := by
  induction g, outputSize using random.induct C generalizing position with
  | case1 g =>
    rw [random, if_pos rfl]
    exact ⟨rfl, h, rfl⟩
  | case2 g outputSize hsize ready toWrite =>
    rename_i ih
    obtain ⟨⟨made, hcounter, hposition, hblock⟩, hkey, hused, hcurrent⟩ := h.ready
    have hlt : ready.dataUsed < 64 := g.dataUsed_ready_lt C
    have hwrite : toWrite ≤ 64 - position % 64 := hused ▸ min_le_left (64 - ready.dataUsed) _
    have hsum : toWrite + (outputSize - toWrite) = outputSize :=
      Nat.add_sub_cancel' (min_le_right _ _)
    have hnext : (ready.advance toWrite (min_le_left _ _)).IsAt C (position + toWrite) := by
      refine ⟨made, hcounter, ?_, fun _ => hblock hlt.ne⟩
      calc position + toWrite + 64
        _ = position + 64 + toWrite := Nat.add_right_comm _ _ _
        _ = 64 * made + (ready.dataUsed + toWrite) := by rw [hposition, Nat.add_assoc]
    obtain ⟨hbytes, hat, hkey'⟩ := ih hnext
    have hpiece : (ready.block.toList.drop ready.dataUsed).take toWrite =
        (List.range' position toWrite).map (byteAt C g.key) := by
      rw [hcurrent, hused, take_drop_blockAt g.key hwrite]
    rw [random, if_neg hsize]
    refine ⟨?_, ?_, hkey'.trans hkey⟩
    · have hadvance : (ready.advance toWrite (min_le_left _ _)).key = g.key := hkey
      change (ready.block.toList.drop ready.dataUsed).take toWrite ++ _ = _
      rw [hbytes, hpiece, hadvance, ← map_append, List.range'_append_1, hsum]
    · rwa [Nat.add_assoc, hsum] at hat

/-- All requests, from any position of the stream. -/
theorem flatten_randoms {g : ChachaRng} {position : ℕ} (h : g.IsAt C position) (sizes : List ℕ) :
    (g.randoms C sizes).flatten = (List.range' position sizes.sum).map (byteAt C g.key) := by
  induction sizes generalizing g position with
  | nil => rfl
  | cons size sizes ih =>
    obtain ⟨hbytes, hnext, hkey⟩ := random_spec h size
    rw [randoms, flatten_cons, hbytes, ih hnext, hkey, ← map_append,
      List.range'_append_1, sum_cons]

/-- The key of a seed is the beginning of the seed and zeroes. -/
theorem toList_keyOfSeed (seed : Bytes) :
    (keyOfSeed seed).toList = (seed ++ List.replicate 32 0).take 32 := by
  change seed.take (min seed.length 32) ++ List.replicate (32 - min seed.length 32) 0 = _
  rw [take_append, take_replicate]
  rcases Nat.le_total seed.length 32 with hle | hle
  · rw [min_eq_left hle, take_length, take_of_length_le hle,
      min_eq_left (Nat.sub_le 32 _)]
  · rw [min_eq_right hle, Nat.sub_self, Nat.sub_eq_zero_of_le hle, Nat.zero_min]

/-- The bytes handed out for any seed and any requests are the beginning of a stream, whatever the
block held at first. Its key is the first 32 bytes of the seed and zeroes after it. The bytes depend
on the requests by their sum only. -/
theorem randoms_eq_keystream (C : Chacha20) (seed : Bytes) (block : List.Vector Byte 64)
    (sizes : List ℕ) :
    ∃ key : List.Vector Byte 32, key.toList = (seed ++ List.replicate 32 0).take 32 ∧
      ((new seed block).randoms C sizes).flatten = keystream C key sizes.sum ∧
      ∀ sizes' : List ℕ, sizes'.sum = sizes.sum → ∀ block' : List.Vector Byte 64,
        ((new seed block').randoms C sizes').flatten =
          ((new seed block).randoms C sizes).flatten := by
  have hstream (block : List.Vector Byte 64) (sizes : List ℕ) :
      ((new seed block).randoms C sizes).flatten = keystream C (keyOfSeed seed) sizes.sum := by
    rw [flatten_randoms (isAt_new seed block), keystream_eq_map, range_eq_range']
    rfl
  refine ⟨keyOfSeed seed, toList_keyOfSeed seed, hstream block sizes, fun sizes' hsum block' => ?_⟩
  rw [hstream, hstream, hsum]

/-- Blocks that repeat the byte of the key that their number selects. -/
def repeatedKeyByte : Chacha20 := fun k ic _ => List.Vector.replicate 64 (k.toList.getD ic.toNat 0)

/-- Requests of forty bytes twice and of eighty bytes at once. -/
theorem randoms_eq_keystream_eighty :
    ∃ key : List.Vector Byte 32, key.toList = [1, 2, 3] ++ List.replicate 29 0 ∧
      ((new [1, 2, 3] (List.Vector.replicate 64 0)).randoms repeatedKeyByte [80]).flatten =
        keystream repeatedKeyByte key 80 ∧
      ((new [1, 2, 3] (List.Vector.replicate 64 255)).randoms repeatedKeyByte [40, 40]).flatten =
        ((new [1, 2, 3] (List.Vector.replicate 64 0)).randoms repeatedKeyByte [80]).flatten := by
  obtain ⟨key, hkey, hstream, hsplit⟩ :=
    randoms_eq_keystream repeatedKeyByte [1, 2, 3] (List.Vector.replicate 64 0) [80]
  exact ⟨key, hkey, hstream, hsplit [40, 40] rfl (List.Vector.replicate 64 255)⟩

end ChachaRng

end Zeth.Core
