/-!
The hash function xxHash64, in numbers without bound: a step that can leave the range of a 64-bit word
is followed by a mask. Data of 32 bytes or more go through four accumulators, one 32-byte stripe after
the other; what is left goes in as 8-byte lanes, at most one 4-byte lane, and single bytes; an
avalanche of shifts and multiplications ends the run.
-/

namespace TraitLift.Hash.XxHash64

/-- First multiplier. -/
def prime1 : Nat := 11400714785074694791
/-- Second multiplier. -/
def prime2 : Nat := 14029467366897019727
/-- Third multiplier. -/
def prime3 : Nat := 1609587929392839161
/-- Fourth multiplier. -/
def prime4 : Nat := 9650029242287828579
/-- Fifth multiplier. -/
def prime5 : Nat := 2870177450012600261

/-- The largest number of 64 bits. -/
def mask : Nat := 0xFFFFFFFFFFFFFFFF

/-- The lowest 64 bits of an integer, negative ones in two's complement. -/
def maskInt (n : Int) : Nat := (n % 18446744073709551616).toNat

/-- The number with the given bytes, least significant first. -/
def fromBytes : List UInt8 → Nat
  | [] => 0
  | b :: bs => b.toNat + 256 * fromBytes bs

/-- Rotation by shifts: right for numbers below two to the sixty-four. -/
def rotateLeft (x r : Nat) : Nat := (((x <<< r) &&& mask) ||| (x >>> (64 - r))) &&& mask

/-- Mixes one lane into an accumulator. -/
def round (acc lane : Nat) : Nat :=
  (rotateLeft ((acc + lane * prime2) &&& mask) 31 * prime1) &&& mask

/-- Folds one of the four accumulators into the hash. -/
def merge (acc v : Nat) : Nat := ((acc ^^^ round 0 v) * prime1 + prime4) &&& mask

/-- The four accumulators of the stripe loop. -/
structure Lanes where
  v1 : Nat
  v2 : Nat
  v3 : Nat
  v4 : Nat
deriving DecidableEq, Repr

namespace Lanes

/-- The accumulators before the first stripe. -/
def init (seed : Nat) : Lanes :=
  ⟨(seed + prime1 + prime2) &&& mask, (seed + prime2) &&& mask, seed, maskInt (seed - prime1)⟩

/-- Mixes the four lanes of one stripe. -/
def stripe (l : Lanes) (bs : List UInt8) : Lanes :=
  ⟨round l.v1 (fromBytes (bs.take 8)), round l.v2 (fromBytes ((bs.drop 8).take 8)),
   round l.v3 (fromBytes ((bs.drop 16).take 8)), round l.v4 (fromBytes ((bs.drop 24).take 8))⟩

/-- One number out of the four accumulators. -/
def combine (l : Lanes) : Nat :=
  merge (merge (merge (merge
    ((rotateLeft l.v1 1 + rotateLeft l.v2 7 + rotateLeft l.v3 12 + rotateLeft l.v4 18) &&& mask)
    l.v1) l.v2) l.v3) l.v4

end Lanes

/-- Mixes in every full stripe and returns the bytes after the last one. -/
def stripes (l : Lanes) (bs : List UInt8) : Lanes × List UInt8 :=
  if 32 ≤ bs.length then stripes (l.stripe bs) (bs.drop 32) else (l, bs)
termination_by bs.length
decreasing_by simp only [List.length_drop]; omega

/-- Mixes in an 8-byte lane. -/
def mixLane (acc : Nat) (bs : List UInt8) : Nat :=
  (rotateLeft (acc ^^^ round 0 (fromBytes bs)) 27 * prime1 + prime4) &&& mask

/-- Mixes in a 4-byte lane. -/
def mixHalf (acc : Nat) (bs : List UInt8) : Nat :=
  (rotateLeft (acc ^^^ ((fromBytes bs * prime1) &&& mask)) 23 * prime2 + prime3) &&& mask

/-- Mixes in a byte. -/
def mixByte (acc : Nat) (b : UInt8) : Nat :=
  (rotateLeft (acc ^^^ ((b.toNat * prime5) &&& mask)) 11 * prime1) &&& mask

/-- Mixes in the 4-byte lane, if there is one, and the bytes after it. -/
def tailHalf (acc : Nat) (bs : List UInt8) : Nat :=
  if 4 ≤ bs.length then (bs.drop 4).foldl mixByte (mixHalf acc (bs.take 4))
  else bs.foldl mixByte acc

/-- Mixes in every full 8-byte lane and what is left after the last one. -/
def tail (acc : Nat) (bs : List UInt8) : Nat :=
  if 8 ≤ bs.length then tail (mixLane acc (bs.take 8)) (bs.drop 8) else tailHalf acc bs
termination_by bs.length
decreasing_by simp only [List.length_drop]; omega

/-- The closing shifts and multiplications. -/
def avalanche (acc : Nat) : Nat :=
  let a := ((acc ^^^ (acc >>> 33)) * prime2) &&& mask
  let b := ((a ^^^ (a >>> 29)) * prime3) &&& mask
  b ^^^ (b >>> 32)

/-- The hash of some bytes under a seed, of which the lowest 64 bits count. -/
def hash (data : List UInt8) (seed : Int) : Nat :=
  let seed := maskInt seed
  if 32 ≤ data.length then
    let (lanes, rest) := stripes (Lanes.init seed) data
    avalanche (tail ((lanes.combine + data.length) &&& mask) rest)
  else avalanche (tail ((((seed + prime5) &&& mask) + data.length) &&& mask) data)

end TraitLift.Hash.XxHash64
