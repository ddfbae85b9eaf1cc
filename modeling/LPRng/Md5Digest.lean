import LPRng.BlockFold
import LPRng.Md5Transfer
import LPRng.StreamFile

/-!
# The MD5 digest

A context takes a text in pieces of any length, as a file is read, and keeps the bytes that do not fill a block of 64. The
digest is that of the whole text, with a mark, zeros and the number of its bits behind it. Words are stored with their low
byte first.
-/

namespace LPRng

namespace Md5Digest

open Md5 (Digest keyLength)

/-! ## Words -/

structure Words where
  a : UInt32
  b : UInt32
  c : UInt32
  d : UInt32
deriving DecidableEq, Repr

/-- A word of a block. -/
def wordAt (block : Bytes) (i : Nat) : UInt32 :=
  (block.getD (4 * i) 0).toUInt32 ||| (block.getD (4 * i + 1) 0).toUInt32 <<< 8 |||
    (block.getD (4 * i + 2) 0).toUInt32 <<< 16 ||| (block.getD (4 * i + 3) 0).toUInt32 <<< 24

def wordBytes (w : UInt32) : Bytes := [w.toUInt8, (w >>> 8).toUInt8, (w >>> 16).toUInt8, (w >>> 24).toUInt8]

def Words.bytes (words : Words) : Bytes :=
  wordBytes words.a ++ wordBytes words.b ++ wordBytes words.c ++ wordBytes words.d

@[simp] theorem length_wordBytes (w : UInt32) : (wordBytes w).length = 4 := rfl

@[simp] theorem Words.length_bytes (words : Words) : words.bytes.length = 16 := rfl

/-! ## One block -/

def f1 (x y z : UInt32) : UInt32 := z ^^^ (x &&& (y ^^^ z))

def f2 (x y z : UInt32) : UInt32 := f1 z x y

def f3 (x y z : UInt32) : UInt32 := x ^^^ y ^^^ z

def f4 (x y z : UInt32) : UInt32 := y ^^^ (x ||| ~~~z)

/-- `MD5STEP`. -/
def md5Step (f : UInt32 → UInt32 → UInt32 → UInt32) (w x y z data s : UInt32) : UInt32 :=
  let w := w + (f x y z + data)
  (w <<< s ||| w >>> (32 - s)) + x

/-- A step of `MD5Transform`: the word of the block it takes, what is added to that, and how far it turns. -/
structure Step where
  index : Nat
  constant : UInt32
  turn : UInt32

def steps1 : List Step :=
  [⟨0, 0xd76aa478, 7⟩, ⟨1, 0xe8c7b756, 12⟩, ⟨2, 0x242070db, 17⟩, ⟨3, 0xc1bdceee, 22⟩,
    ⟨4, 0xf57c0faf, 7⟩, ⟨5, 0x4787c62a, 12⟩, ⟨6, 0xa8304613, 17⟩, ⟨7, 0xfd469501, 22⟩,
    ⟨8, 0x698098d8, 7⟩, ⟨9, 0x8b44f7af, 12⟩, ⟨10, 0xffff5bb1, 17⟩, ⟨11, 0x895cd7be, 22⟩,
    ⟨12, 0x6b901122, 7⟩, ⟨13, 0xfd987193, 12⟩, ⟨14, 0xa679438e, 17⟩, ⟨15, 0x49b40821, 22⟩]

def steps2 : List Step :=
  [⟨1, 0xf61e2562, 5⟩, ⟨6, 0xc040b340, 9⟩, ⟨11, 0x265e5a51, 14⟩, ⟨0, 0xe9b6c7aa, 20⟩,
    ⟨5, 0xd62f105d, 5⟩, ⟨10, 0x02441453, 9⟩, ⟨15, 0xd8a1e681, 14⟩, ⟨4, 0xe7d3fbc8, 20⟩,
    ⟨9, 0x21e1cde6, 5⟩, ⟨14, 0xc33707d6, 9⟩, ⟨3, 0xf4d50d87, 14⟩, ⟨8, 0x455a14ed, 20⟩,
    ⟨13, 0xa9e3e905, 5⟩, ⟨2, 0xfcefa3f8, 9⟩, ⟨7, 0x676f02d9, 14⟩, ⟨12, 0x8d2a4c8a, 20⟩]

def steps3 : List Step :=
  [⟨5, 0xfffa3942, 4⟩, ⟨8, 0x8771f681, 11⟩, ⟨11, 0x6d9d6122, 16⟩, ⟨14, 0xfde5380c, 23⟩,
    ⟨1, 0xa4beea44, 4⟩, ⟨4, 0x4bdecfa9, 11⟩, ⟨7, 0xf6bb4b60, 16⟩, ⟨10, 0xbebfbc70, 23⟩,
    ⟨13, 0x289b7ec6, 4⟩, ⟨0, 0xeaa127fa, 11⟩, ⟨3, 0xd4ef3085, 16⟩, ⟨6, 0x04881d05, 23⟩,
    ⟨9, 0xd9d4d039, 4⟩, ⟨12, 0xe6db99e5, 11⟩, ⟨15, 0x1fa27cf8, 16⟩, ⟨2, 0xc4ac5665, 23⟩]

def steps4 : List Step :=
  [⟨0, 0xf4292244, 6⟩, ⟨7, 0x432aff97, 10⟩, ⟨14, 0xab9423a7, 15⟩, ⟨5, 0xfc93a039, 21⟩,
    ⟨12, 0x655b59c3, 6⟩, ⟨3, 0x8f0ccc92, 10⟩, ⟨10, 0xffeff47d, 15⟩, ⟨1, 0x85845dd1, 21⟩,
    ⟨8, 0x6fa87e4f, 6⟩, ⟨15, 0xfe2ce6e0, 10⟩, ⟨6, 0xa3014314, 15⟩, ⟨13, 0x4e0811a1, 21⟩,
    ⟨4, 0xf7537e82, 6⟩, ⟨11, 0xbd3af235, 10⟩, ⟨2, 0x2ad7d2bb, 15⟩, ⟨9, 0xeb86d391, 21⟩]

/-- The steps of one round. Each sets the first word, and the next one has the last word in its place. -/
def round (f : UInt32 → UInt32 → UInt32 → UInt32) (block : Bytes) (steps : List Step) (words : Words) : Words :=
  steps.foldl (fun w step =>
    ⟨w.d, md5Step f w.a w.b w.c w.d (wordAt block step.index + step.constant) step.turn, w.b, w.c⟩) words

def md5Transform (buf : Words) (block : Bytes) : Words :=
  let w := round f4 block steps4 (round f3 block steps3 (round f2 block steps2 (round f1 block steps1 buf)))
  ⟨buf.a + w.a, buf.b + w.b, buf.c + w.c, buf.d + w.d⟩

/-- The only block of the empty text. -/
example : (md5Transform ⟨0x67452301, 0xefcdab89, 0x98badcfe, 0x10325476⟩ (0x80 :: List.replicate 63 0)).bytes =
    [0xd4, 0x1d, 0x8c, 0xd9, 0x8f, 0x00, 0xb2, 0x04, 0xe9, 0x80, 0x09, 0x98, 0xec, 0xf8, 0x42, 0x7e] := by decide +kernel

/-! ## A context -/

/-- An `MD5Context`. The bits are counted in two words, the low one first. -/
structure Context where
  buf : Words
  low : UInt32
  high : UInt32
  input : Bytes
  size : input.length = 64

/-- Bytes are copied to a place in the block. -/
def memcpy (input : Bytes) (place : Nat) (bytes : Bytes) : Bytes :=
  input.take place ++ bytes ++ input.drop (place + bytes.length)

theorem length_memcpy {input bytes : Bytes} {place : Nat} (inside : place + bytes.length ≤ input.length) :
    (memcpy input place bytes).length = input.length := by
  simp only [memcpy, List.length_append, List.length_take, List.length_drop]
  omega

/-- `MD5Init`, which leaves the block as it is. -/
def md5Init (ctx : Context) : Context :=
  { ctx with buf := ⟨0x67452301, 0xefcdab89, 0x98badcfe, 0x10325476⟩, low := 0, high := 0 }

/-- The loop of `MD5Update` over whole blocks, and the copy of the bytes that remain. -/
def wholeBlocks (ctx : Context) (buf : Bytes) : Context :=
  if h : 64 ≤ buf.length then
    wholeBlocks { ctx with buf := md5Transform ctx.buf (buf.take 64), input := buf.take 64, size := by simp [h] } (buf.drop 64)
  else { ctx with
    input := memcpy ctx.input 0 buf
    size := (length_memcpy (by rw [ctx.size]; omega)).trans ctx.size }
termination_by buf.length
decreasing_by
  rw [List.length_drop]
  omega

/-- The bit count with a piece of the text. -/
def countBits (ctx : Context) (len : Nat) : Context :=
  let low := ctx.low + UInt32.ofNat len <<< 3
  { ctx with low := low, high := (if low < ctx.low then ctx.high + 1 else ctx.high) + UInt32.ofNat len >>> 29 }

/-- The number of bytes in the block that are not taken yet. -/
def count (ctx : Context) : Nat := ((ctx.low >>> 3) &&& 0x3f).toNat

theorem count_eq (ctx : Context) : count ctx = ctx.low.toNat / 8 % 64 := by
  rw [count, UInt32.toNat_and, UInt32.toNat_shiftRight]
  exact (Nat.and_two_pow_sub_one_eq_mod _ 6).trans (congrArg (· % 64) (Nat.shiftRight_eq_div_pow _ 3))

theorem count_lt (ctx : Context) : count ctx < 64 := count_eq ctx ▸ Nat.mod_lt _ (by decide)

def md5Update (ctx : Context) (buf : Bytes) : Context :=
  let len := buf.length
  let t := count ctx
  have inside : t < 64 := count_lt ctx
  let ctx := countBits ctx len
  if t = 0 then wholeBlocks ctx buf
  else if short : len < 64 - t then
    { ctx with
      input := memcpy ctx.input t buf
      size := (length_memcpy (by rw [ctx.size]; omega)).trans ctx.size }
  else
    let input := memcpy ctx.input t (buf.take (64 - t))
    have size : input.length = 64 := (length_memcpy (by rw [ctx.size, List.length_take]; omega)).trans ctx.size
    wholeBlocks { ctx with buf := md5Transform ctx.buf input, input := input, size := size } (buf.drop (64 - t))

/-- `MD5Final`. -/
def md5Final (ctx : Context) : Bytes :=
  let count := count ctx
  let input := memcpy ctx.input count [0x80]
  let left := 64 - 1 - count
  let padded :=
    if left < 8 then
      let input := memcpy input (count + 1) (List.replicate left 0)
      (md5Transform ctx.buf input, memcpy input 0 (List.replicate 56 0))
    else (ctx.buf, memcpy input (count + 1) (List.replicate (left - 8) 0))
  let input := memcpy padded.2 56 (wordBytes ctx.low ++ wordBytes ctx.high)
  (md5Transform padded.1 input).bytes

/-- `MDString`, from what is in the memory of the context. -/
def mdString (ctx : Context) (inString : Bytes) : Bytes := md5Final (md5Update (md5Init ctx) inString)

/-- `MDFile`, with the pieces that the reads of the file yield. -/
def mdFile (ctx : Context) (reads : List Bytes) : Bytes := md5Final (reads.foldl md5Update (md5Init ctx))

/-- `F1` is the choice between its last two words by its first one. -/
theorem f1_eq (x y z : UInt32) : f1 x y z = (x &&& y) ||| (~~~x &&& z) := by
  apply UInt32.eq_of_toBitVec_eq
  ext i inside
  simp only [f1, UInt32.toBitVec_xor, UInt32.toBitVec_and, UInt32.toBitVec_or, UInt32.toBitVec_not, BitVec.getElem_xor,
    BitVec.getElem_and, BitVec.getElem_or, BitVec.getElem_not]
  cases x.toBitVec[i] <;> cases y.toBitVec[i] <;> cases z.toBitVec[i] <;> rfl

theorem f2_eq (x y z : UInt32) : f2 x y z = (x &&& z) ||| (y &&& ~~~z) := by
  rw [f2, f1_eq, UInt32.and_comm z x, UInt32.and_comm (~~~z) y]

/-! ## The digest of a text -/

def initial : Words := ⟨0x67452301, 0xefcdab89, 0x98badcfe, 0x10325476⟩

theorem block_pos : 0 < 64 := by decide

/-- The number of zeros that leave eight bytes of a block behind a text and its mark. -/
def zeros (len : Nat) : Nat := (119 - len % 64) % 64

/-- The mark, the zeros and the number of bits. -/
def padding (len : Nat) : Bytes :=
  0x80 :: List.replicate (zeros len) 0 ++
    (wordBytes (UInt32.ofNat (8 * len)) ++ wordBytes (UInt32.ofNat (8 * len / 2 ^ 32)))

theorem length_padded (text : Bytes) : (text ++ padding text.length).length % 64 = 0 := by
  simp only [padding, zeros, List.length_append, List.length_cons, List.length_replicate, length_wordBytes]
  omega

/-- The state after the blocks of a text and what is left of it. -/
def taken (words : Words) (text : Bytes) : Words × Bytes := BlockFold.blocks md5Transform block_pos words text

def digestOf (text : Bytes) : Bytes := (taken initial (text ++ padding text.length)).1.bytes

/-- A context that has taken a text. -/
structure Holds (ctx : Context) (text : Bytes) : Prop where
  state : ctx.buf = (taken initial text).1
  rest : ctx.input.take (text.length % 64) = (taken initial text).2
  low : ctx.low = UInt32.ofNat (8 * text.length)
  high : ctx.high = UInt32.ofNat (8 * text.length / 2 ^ 32)

theorem holds_md5Init (ctx : Context) : Holds (md5Init ctx) [] := by
  have start : taken initial [] = (initial, []) := BlockFold.blocks_short _ _ _ (by decide)
  exact ⟨by rw [start]; rfl, by rw [start]; rfl, rfl, rfl⟩

section

variable {ctx : Context} {text buf : Bytes}

theorem Holds.counted (holds : Holds ctx text) : count ctx = text.length % 64 := by
  rw [count_eq, holds.low, UInt32.toNat_ofNat']
  omega

/-- The count of the bits goes on modulo 2^64, whatever carries there are. -/
theorem bits_countBits (low : ctx.low = UInt32.ofNat (8 * text.length))
    (high : ctx.high = UInt32.ofNat (8 * text.length / 2 ^ 32)) (short : buf.length < 2 ^ 32) :
    (countBits ctx buf.length).low = UInt32.ofNat (8 * (text ++ buf).length) ∧
      (countBits ctx buf.length).high = UInt32.ofNat (8 * (text ++ buf).length / 2 ^ 32) := by
  have lowNat : ctx.low.toNat = 8 * text.length % 2 ^ 32 := by rw [low, UInt32.toNat_ofNat']
  have highNat : ctx.high.toNat = 8 * text.length / 2 ^ 32 % 2 ^ 32 := by rw [high, UInt32.toNat_ofNat']
  have lenNat : (UInt32.ofNat buf.length).toNat = buf.length := by
    rw [UInt32.toNat_ofNat']
    exact Nat.mod_eq_of_lt short
  have shifted : (UInt32.ofNat buf.length <<< 3).toNat = 8 * buf.length % 2 ^ 32 := by
    rw [UInt32.toNat_shiftLeft, lenNat]
    exact congrArg (· % 2 ^ 32) ((Nat.shiftLeft_eq _ 3).trans (Nat.mul_comm _ _))
  have topBits : (UInt32.ofNat buf.length >>> 29).toNat = buf.length / 2 ^ 29 := by
    rw [UInt32.toNat_shiftRight, lenNat]
    exact Nat.shiftRight_eq_div_pow _ 29
  have sum : (ctx.low + UInt32.ofNat buf.length <<< 3).toNat =
      (8 * text.length % 2 ^ 32 + 8 * buf.length % 2 ^ 32) % 2 ^ 32 := by
    rw [UInt32.toNat_add, lowNat, shifted]
  constructor
  · apply UInt32.toNat_inj.mp
    rw [UInt32.toNat_ofNat', List.length_append]
    exact sum.trans (by omega)
  · apply UInt32.toNat_inj.mp
    rw [UInt32.toNat_ofNat', List.length_append]
    unfold countBits
    dsimp only
    rw [UInt32.toNat_add, topBits]
    by_cases carry : ctx.low + UInt32.ofNat buf.length <<< 3 < ctx.low
    · rw [if_pos carry, UInt32.toNat_add, highNat]
      have less := UInt32.lt_iff_toNat_lt.mp carry
      rw [sum, lowNat] at less
      have one : (1 : UInt32).toNat = 1 := rfl
      rw [one]
      omega
    · rw [if_neg carry, highNat]
      have more := mt UInt32.lt_iff_toNat_lt.mpr carry
      rw [sum, lowNat] at more
      omega

theorem take_memcpy {input bytes : Bytes} {place : Nat} (inside : place ≤ input.length) :
    (memcpy input place bytes).take (place + bytes.length) = input.take place ++ bytes :=
  List.take_left' (by rw [List.length_append, List.length_take, Nat.min_eq_left inside])

/-- Bytes that end where the block does. -/
theorem memcpy_end {input bytes : Bytes} {place : Nat} (ends : place + bytes.length = input.length) :
    memcpy input place bytes = input.take place ++ bytes := by
  rw [memcpy, List.drop_of_length_le (Nat.le_of_eq ends.symm), List.append_nil]

theorem wholeBlocks_spec (ctx : Context) (buf : Bytes) :
    (wholeBlocks ctx buf).buf = (taken ctx.buf buf).1 ∧
      (wholeBlocks ctx buf).input.take (buf.length % 64) = (taken ctx.buf buf).2 ∧
      (wholeBlocks ctx buf).low = ctx.low ∧ (wholeBlocks ctx buf).high = ctx.high := by
  fun_induction wholeBlocks ctx buf with
  | case1 ctx buf h ih =>
      have whole : (buf.take 64).length = 64 := by
        rw [List.length_take]
        omega
      have next : taken ctx.buf buf = taken (md5Transform ctx.buf (buf.take 64)) (buf.drop 64) := by
        rw [taken, taken, ← BlockFold.blocks_block md5Transform block_pos ctx.buf whole, List.take_append_drop]
      have length : buf.length % 64 = (buf.drop 64).length % 64 := by
        rw [List.length_drop]
        exact Nat.mod_eq_sub_mod h
      rw [next, length]
      exact ih
  | case2 ctx buf h =>
      have short : taken ctx.buf buf = (ctx.buf, buf) := BlockFold.blocks_short _ _ _ (Nat.not_le.mp h)
      have copied := @take_memcpy ctx.input buf 0 (Nat.zero_le _)
      rw [Nat.zero_add] at copied
      rw [short, Nat.mod_eq_of_lt (Nat.not_le.mp h)]
      exact ⟨rfl, copied, rfl, rfl⟩

theorem taken_append (words : Words) (text more : Bytes) :
    taken words (text ++ more) = taken (taken words text).1 ((taken words text).2 ++ more) :=
  BlockFold.blocks_append md5Transform block_pos words text more

theorem length_taken (words : Words) (text : Bytes) : (taken words text).2.length = text.length % 64 :=
  BlockFold.length_rest md5Transform block_pos words text

/-- A piece is taken as if it had come with the text before it. -/
theorem Holds.update (holds : Holds ctx text) (short : buf.length < 2 ^ 32) :
    Holds (md5Update ctx buf) (text ++ buf) := by
  have bits := bits_countBits holds.low holds.high short
  have pending := length_taken initial text
  have all := taken_append initial text buf
  rw [← holds.state, ← holds.rest] at all
  rw [← holds.rest] at pending
  have length : (text ++ buf).length % 64 = (text.length % 64 + buf.length) % 64 := by
    rw [List.length_append, Nat.mod_add_mod]
  rw [← holds.counted] at all pending length
  have inside := count_lt ctx
  have fits : count ctx ≤ ctx.input.length := by
    rw [ctx.size]
    omega
  unfold md5Update
  dsimp only
  split
  · -- the block is empty
    rename_i empty
    rw [empty, List.take_zero, List.nil_append] at all
    rw [empty, Nat.zero_add] at length
    have spec := wholeBlocks_spec (countBits ctx buf.length) buf
    refine ⟨?_, ?_, spec.2.2.1.trans bits.1, spec.2.2.2.trans bits.2⟩
    · rw [all]
      exact spec.1
    · rw [all, length]
      exact spec.2.1
  · split
    · -- the piece does not fill the block
      rename_i few
      have more : taken ctx.buf (ctx.input.take (count ctx) ++ buf) = (ctx.buf, ctx.input.take (count ctx) ++ buf) := by
        refine BlockFold.blocks_short _ _ _ ?_
        rw [List.length_append, pending]
        omega
      rw [more] at all
      refine ⟨?_, ?_, bits.1, bits.2⟩
      · rw [all]
        rfl
      · rw [all, length, Nat.mod_eq_of_lt (by omega)]
        exact take_memcpy fits
    · -- the block is filled, and more may follow
      rename_i many
      have head : (buf.take (64 - count ctx)).length = 64 - count ctx := by
        rw [List.length_take]
        omega
      have filled : memcpy ctx.input (count ctx) (buf.take (64 - count ctx)) =
          ctx.input.take (count ctx) ++ buf.take (64 - count ctx) := by
        refine memcpy_end ?_
        rw [head, ctx.size]
        omega
      have whole : (ctx.input.take (count ctx) ++ buf.take (64 - count ctx)).length = 64 := by
        rw [List.length_append, pending, head]
        omega
      have next : taken ctx.buf (ctx.input.take (count ctx) ++ buf) =
          taken (md5Transform ctx.buf (memcpy ctx.input (count ctx) (buf.take (64 - count ctx))))
            (buf.drop (64 - count ctx)) := by
        rw [filled, taken, taken, ← BlockFold.blocks_block md5Transform block_pos ctx.buf whole, List.append_assoc,
          List.take_append_drop]
      have left : (text ++ buf).length % 64 = (buf.drop (64 - count ctx)).length % 64 := by
        rw [length, List.length_drop]
        omega
      rw [next] at all
      have spec := wholeBlocks_spec { countBits ctx buf.length with
        buf := md5Transform ctx.buf (memcpy ctx.input (count ctx) (buf.take (64 - count ctx)))
        input := memcpy ctx.input (count ctx) (buf.take (64 - count ctx))
        size := by rw [filled, whole] } (buf.drop (64 - count ctx))
      refine ⟨?_, ?_, spec.2.2.1.trans bits.1, spec.2.2.2.trans bits.2⟩
      · rw [all]
        exact spec.1
      · rw [all, left]
        exact spec.2.1

/-- The mark goes behind the bytes in the block. -/
theorem take_mark (inside : count ctx < 64) :
    (memcpy ctx.input (count ctx) [0x80]).take (count ctx + 1) = ctx.input.take (count ctx) ++ [0x80] ∧
      (memcpy ctx.input (count ctx) [0x80]).length = 64 := by
  have size := ctx.size
  exact ⟨@take_memcpy ctx.input [0x80] (count ctx) (by omega),
    (length_memcpy (by rw [List.length_singleton]; omega)).trans size⟩

/-- `MD5Final` pads what the context has taken. -/
theorem Holds.final (holds : Holds ctx text) : md5Final ctx = digestOf text := by
  have pending := length_taken initial text
  have all := taken_append initial text (padding text.length)
  have zeroCount : zeros text.length = (119 - count ctx) % 64 := by rw [zeros, holds.counted]
  rw [← holds.state, ← holds.rest] at all
  rw [← holds.rest] at pending
  rw [← holds.counted] at all pending
  have inside := count_lt ctx
  have mark := take_mark inside
  unfold digestOf
  rw [all, padding, zeroCount, ← holds.low, ← holds.high]
  unfold md5Final
  dsimp only
  generalize lens : wordBytes ctx.low ++ wordBytes ctx.high = bits
  have eight : bits.length = 8 := by rw [← lens]; rfl
  refine congrArg Words.bytes ?_
  split
  · -- the bits have no place in the block
    rename_i long
    have first : memcpy (memcpy ctx.input (count ctx) [0x80]) (count ctx + 1) (List.replicate (64 - 1 - count ctx) 0) =
        ctx.input.take (count ctx) ++ [0x80] ++ List.replicate (64 - 1 - count ctx) 0 := by
      rw [memcpy_end (by rw [mark.2, List.length_replicate]; omega), mark.1]
    have whole : (ctx.input.take (count ctx) ++ [0x80] ++ List.replicate (64 - 1 - count ctx) 0).length = 64 := by
      rw [List.length_append, List.length_append, pending, List.length_singleton, List.length_replicate]
      omega
    rw [first]
    dsimp only
    have second : memcpy (memcpy (ctx.input.take (count ctx) ++ [0x80] ++ List.replicate (64 - 1 - count ctx) 0) 0
        (List.replicate 56 0)) 56 bits = List.replicate 56 0 ++ bits := by
      rw [memcpy_end (by rw [length_memcpy (by rw [whole]; decide), whole, eight])]
      exact congrArg (· ++ bits) (@take_memcpy _ (List.replicate 56 0) 0 (Nat.zero_le _))
    have cut : ctx.input.take (count ctx) ++ (0x80 :: List.replicate ((119 - count ctx) % 64) 0 ++ bits) =
        (ctx.input.take (count ctx) ++ [0x80] ++ List.replicate (64 - 1 - count ctx) 0) ++ (List.replicate 56 0 ++ bits) := by
      have sum : (119 - count ctx) % 64 = 64 - 1 - count ctx + 56 := by omega
      rw [sum, ← List.replicate_append_replicate]
      simp only [List.append_assoc, List.cons_append, List.nil_append]
    rw [second, cut, taken, BlockFold.blocks_block md5Transform block_pos _ whole, BlockFold.blocks_whole]
    rw [List.length_append, List.length_replicate, eight]
  · rename_i short
    have zeroed : (memcpy (memcpy ctx.input (count ctx) [0x80]) (count ctx + 1)
        (List.replicate (64 - 1 - count ctx - 8) 0)).take 56 =
          ctx.input.take (count ctx) ++ [0x80] ++ List.replicate (64 - 1 - count ctx - 8) 0 := by
      have place : count ctx + 1 + (List.replicate (64 - 1 - count ctx - 8) (0 : UInt8)).length = 56 := by
        rw [List.length_replicate]
        omega
      have taken := @take_memcpy (memcpy ctx.input (count ctx) [0x80])
        (List.replicate (64 - 1 - count ctx - 8) 0) (count ctx + 1) (by rw [mark.2]; omega)
      rwa [place, mark.1] at taken
    have size : (memcpy (memcpy ctx.input (count ctx) [0x80]) (count ctx + 1)
        (List.replicate (64 - 1 - count ctx - 8) 0)).length = 64 := by
      rw [length_memcpy (by rw [mark.2, List.length_replicate]; omega), mark.2]
    have block : memcpy (memcpy (memcpy ctx.input (count ctx) [0x80]) (count ctx + 1)
        (List.replicate (64 - 1 - count ctx - 8) 0)) 56 bits =
          ctx.input.take (count ctx) ++ (0x80 :: List.replicate ((119 - count ctx) % 64) 0 ++ bits) := by
      have few : (119 - count ctx) % 64 = 64 - 1 - count ctx - 8 := by omega
      rw [memcpy_end (by rw [size, eight]), zeroed, few]
      simp only [List.append_assoc, List.cons_append, List.nil_append]
    have whole : (ctx.input.take (count ctx) ++ (0x80 :: List.replicate ((119 - count ctx) % 64) 0 ++ bits)).length = 64 := by
      rw [← block, length_memcpy (by rw [size, eight]), size]
    rw [block, taken, BlockFold.blocks_whole md5Transform block_pos _ whole]

end

theorem foldl_md5Update {pieces : List Bytes} (short : ∀ piece ∈ pieces, piece.length < 2 ^ 32) {ctx : Context}
    {text : Bytes} (holds : Holds ctx text) : Holds (pieces.foldl md5Update ctx) (text ++ pieces.flatten) := by
  induction pieces generalizing ctx text with
  | nil => rwa [List.flatten_nil, List.append_nil]
  | cons piece pieces ih =>
      have next := ih (fun other member => short other (List.mem_cons_of_mem piece member))
        (holds.update (short piece List.mem_cons_self))
      rwa [List.append_assoc] at next

/-- However a text comes in pieces, and whatever the memory of the context held, the digest is that of the text. -/
theorem md5_pieces {pieces : List Bytes} (short : ∀ piece ∈ pieces, piece.length < 2 ^ 32) (ctx : Context) :
    md5Final (pieces.foldl md5Update (md5Init ctx)) = digestOf pieces.flatten :=
  (foldl_md5Update short (holds_md5Init ctx)).final

/-- Two pieces, in a context that held other bytes. -/
theorem md5_pieces_two : md5Final ([lit "a", lit "bc"].foldl md5Update
    (md5Init ⟨initial, 1, 2, List.replicate 64 7, List.length_replicate⟩)) = digestOf [lit "a", lit "bc"].flatten :=
  md5_pieces (by decide) _

/-- What the reads of a file yield before its end. -/
structure Reads (file : Bytes) (reads : List Bytes) : Prop where
  whole : reads.flatten = file
  some : ∀ read ∈ reads, 0 < read.length ∧ read.length ≤ largeBuffer

/-- However a file is read, it has the digest of its bytes. -/
theorem mdFile_eq {file : Bytes} {reads : List Bytes} (read : Reads file reads) (ctx : Context) :
    mdFile ctx reads = digestOf file := by
  have short : ∀ piece ∈ reads, piece.length < 2 ^ 32 := fun piece member =>
    Nat.lt_of_le_of_lt (read.some piece member).2 (by decide)
  have holds := foldl_md5Update short (holds_md5Init ctx)
  rw [List.nil_append, read.whole] at holds
  exact holds.final

theorem mdString_eq {inString : Bytes} (short : inString.length < 2 ^ 31) (ctx : Context) :
    mdString ctx inString = digestOf inString :=
  ((holds_md5Init ctx).update (Nat.lt_trans short (by decide))).final

/-- The digest of the transfers. -/
def md5Digest : Digest := ⟨digestOf, fun _ => rfl⟩

end Md5Digest

end LPRng
