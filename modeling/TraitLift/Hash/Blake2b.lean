/-!
The keyed hash function BLAKE2b with an 8-byte key and an 8-byte digest. The key, filled up to a
block, comes before the data; every block of 128 bytes is compressed into a chain of eight words,
and the first of them is the digest.
-/

namespace TraitLift.Hash

/-! ### Words -/

/-- The word whose bytes, least significant first, start with `bs`; bytes past the eighth are
shifted out. -/
def littleEndian : List UInt8 → UInt64
  | [] => 0
  | b :: bs => b.toUInt64 ||| (littleEndian bs <<< 8)

/-- The eight bytes of a word, least significant first. -/
def bytesOf (w : UInt64) : List UInt8 :=
  (List.range 8).map fun i => (w >>> (8 * UInt64.ofNat i)).toUInt8

/-- Rotation towards the least significant bit by `r`, for `0 < r < 64`. -/
def rotateRight (w r : UInt64) : UInt64 := (w >>> r) ||| (w <<< (64 - r))

/-- The word congruent to an integer modulo two to the sixty-four. -/
def wordOf (n : Int) : UInt64 := UInt64.ofNat (n % 18446744073709551616).toNat

namespace Blake2b

/-- The chain of eight words. -/
abbrev Chain := Vector UInt64 8

/-- The working state of one compression. -/
abbrev Work := Vector UInt64 16

/-- The constants that start every chain. -/
def initial : Chain :=
  #v[0x6a09e667f3bcc908, 0xbb67ae8584caa73b, 0x3c6ef372fe94f82b, 0xa54ff53a5f1d36f1,
     0x510e527fade682d1, 0x9b05688c2b3e6c1f, 0x1f83d9abfb41bd6b, 0x5be0cd19137e2179]

/-- The order in which each round reads the message words. -/
def schedule : List (Vector (Fin 16) 16) :=
  [#v[0, 1, 2, 3, 4, 5, 6, 7, 8, 9, 10, 11, 12, 13, 14, 15],
   #v[14, 10, 4, 8, 9, 15, 13, 6, 1, 12, 0, 2, 11, 7, 5, 3],
   #v[11, 8, 12, 0, 5, 2, 15, 13, 10, 14, 3, 6, 7, 1, 9, 4],
   #v[7, 9, 3, 1, 13, 12, 11, 14, 2, 6, 5, 10, 4, 0, 15, 8],
   #v[9, 0, 5, 7, 2, 4, 10, 15, 14, 1, 11, 12, 6, 8, 3, 13],
   #v[2, 12, 6, 10, 0, 11, 8, 3, 4, 13, 7, 5, 15, 14, 1, 9],
   #v[12, 5, 1, 15, 14, 13, 4, 10, 0, 7, 6, 3, 9, 2, 8, 11],
   #v[13, 11, 7, 14, 12, 1, 3, 9, 5, 0, 15, 4, 8, 6, 2, 10],
   #v[6, 15, 14, 9, 11, 3, 0, 8, 12, 2, 13, 7, 1, 4, 10, 5],
   #v[10, 2, 8, 4, 7, 6, 1, 5, 15, 11, 9, 14, 3, 12, 13, 0]]

/-- The twelve rounds: the ten rows of the schedule and the first two again. -/
def rounds : List (Vector (Fin 16) 16) := schedule ++ schedule.take 2

/-- Mixes two message words into four words of the working state. -/
def mix (v : Work) (a b c d : Fin 16) (x y : UInt64) : Work :=
  let va := v[a] + v[b] + x
  let vd := rotateRight (v[d] ^^^ va) 32
  let vc := v[c] + vd
  let vb := rotateRight (v[b] ^^^ vc) 24
  let va := va + vb + y
  let vd := rotateRight (vd ^^^ va) 16
  let vc := vc + vd
  let vb := rotateRight (vb ^^^ vc) 63
  (((v.set a va).set b vb).set c vc).set d vd

/-- One round: the columns, then the diagonals. -/
def round (m : Work) (v : Work) (s : Vector (Fin 16) 16) : Work :=
  let v := mix v 0 4 8 12 m[s[0]] m[s[1]]
  let v := mix v 1 5 9 13 m[s[2]] m[s[3]]
  let v := mix v 2 6 10 14 m[s[4]] m[s[5]]
  let v := mix v 3 7 11 15 m[s[6]] m[s[7]]
  let v := mix v 0 5 10 15 m[s[8]] m[s[9]]
  let v := mix v 1 6 11 12 m[s[10]] m[s[11]]
  let v := mix v 2 7 8 13 m[s[12]] m[s[13]]
  mix v 3 4 9 14 m[s[14]] m[s[15]]

/-- The sixteen message words of a block; a short block is filled up with zero bytes. -/
def message (block : List UInt8) : Work :=
  Vector.ofFn fun i => littleEndian ((block.drop (8 * i.val)).take 8)

/-- Compresses a block into the chain; `count` bytes have gone in, this block included. -/
def compress (h : Chain) (block : List UInt8) (count : Nat) (isLast : Bool) : Chain :=
  let v : Work := h ++ initial
  let v := v.set 12 (v[12] ^^^ UInt64.ofNat count)
  let v := if isLast then v.set 14 (v[14] ^^^ 0xFFFFFFFFFFFFFFFF) else v
  let v := rounds.foldl (round (message block)) v
  Vector.ofFn fun i => h[i] ^^^ v[i.castLE (by decide : 8 ≤ 16)] ^^^ v[Fin.natAdd 8 i]

/-- Compresses all blocks of `bs`, of which the last one is marked, after `count` bytes. -/
def absorb (h : Chain) (count : Nat) (bs : List UInt8) : Chain :=
  if 128 < bs.length then
    absorb (compress h (bs.take 128) (count + 128) false) (count + 128) (bs.drop 128)
  else compress h bs (count + bs.length) true
termination_by bs.length
decreasing_by simp only [List.length_drop]; omega

/-- The chain at the start, marked with the lengths of key and digest. -/
def start : Chain := initial.set 0 (initial[0] ^^^ 0x01010808)

/-- The digest, read as a little-endian word, of some bytes under a key of one word. -/
def hash (data : List UInt8) (key : UInt64) : UInt64 :=
  (absorb start 0 (bytesOf key ++ List.replicate 120 0 ++ data))[0]

end Blake2b

end TraitLift.Hash
