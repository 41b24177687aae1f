import Mathlib.Tactic
import TraitLift.Hash.XxHash64

/-!
The hash function is xxHash64 (`hash_parts`). Beside the numbers with masks stands the function as it is
defined over 64-bit words, where addition and multiplication wrap around and rotation is one of the
operations. The data are split once: into full stripes, full lanes, at most one half lane and single
bytes (`Parts`), and every byte has its place in just one of them (`exists_parts`). The two agree because a
number that stands for a word stays below two to the sixty-four after each step, without which the
rotation by shifts would be wrong (`toNat_rotateLeft`).
-/

namespace TraitLift.Hash.XxHash64

/-! ### The function over words -/

/-- Data as the hash takes them in. -/
structure Parts where
  stripes : List (Vector UInt8 32)
  lanes : List (Vector UInt8 8)
  half : Option (Vector UInt8 4)
  bytes : List UInt8
  lanes_lt : lanes.length < 4
  bytes_lt : bytes.length < 4

/-- The data, part after part. -/
def Parts.toList (p : Parts) : List UInt8 :=
  p.stripes.flatMap Vector.toList ++
    (p.lanes.flatMap Vector.toList ++ ((p.half.elim [] Vector.toList) ++ p.bytes))

namespace Words

/-- A word of 64 bits. -/
abbrev Word := BitVec 64

/-- The word with the given bytes, least significant first. -/
def ofBytes (bs : List UInt8) : Word := BitVec.ofNat 64 (Nat.ofDigits 256 (bs.map UInt8.toNat))

/-- First multiplier. -/
def prime1 : Word := 0x9E3779B185EBCA87
/-- Second multiplier. -/
def prime2 : Word := 0xC2B2AE3D27D4EB4F
/-- Third multiplier. -/
def prime3 : Word := 0x165667B19E3779F9
/-- Fourth multiplier. -/
def prime4 : Word := 0x85EBCA77C2B2AE63
/-- Fifth multiplier. -/
def prime5 : Word := 0x27D4EB2F165667C5

/-- Mixes one lane into an accumulator. -/
def round (acc lane : Word) : Word := (acc + lane * prime2).rotateLeft 31 * prime1

/-- Folds one of the four accumulators into the hash. -/
def merge (acc v : Word) : Word := (acc ^^^ round 0 v) * prime1 + prime4

/-- The four accumulators of the stripes. -/
structure Lanes where
  v1 : Word
  v2 : Word
  v3 : Word
  v4 : Word

namespace Lanes

/-- The accumulators before the first stripe. -/
def init (seed : Word) : Lanes := ⟨seed + prime1 + prime2, seed + prime2, seed, seed - prime1⟩

/-- Mixes the four lanes of one stripe. -/
def stripe (l : Lanes) (s : Vector UInt8 32) : Lanes :=
  ⟨round l.v1 (ofBytes (s.toList.take 8)), round l.v2 (ofBytes ((s.toList.drop 8).take 8)),
   round l.v3 (ofBytes ((s.toList.drop 16).take 8)), round l.v4 (ofBytes ((s.toList.drop 24).take 8))⟩

/-- One word out of the four accumulators. -/
def combine (l : Lanes) : Word :=
  merge (merge (merge (merge
    (l.v1.rotateLeft 1 + l.v2.rotateLeft 7 + l.v3.rotateLeft 12 + l.v4.rotateLeft 18)
    l.v1) l.v2) l.v3) l.v4

end Lanes

/-- Mixes in a lane. -/
def mixLane (acc : Word) (lane : Vector UInt8 8) : Word :=
  (acc ^^^ round 0 (ofBytes lane.toList)).rotateLeft 27 * prime1 + prime4

/-- Mixes in a half lane. -/
def mixHalf (acc : Word) (half : Vector UInt8 4) : Word :=
  (acc ^^^ (ofBytes half.toList * prime1)).rotateLeft 23 * prime2 + prime3

/-- Mixes in a byte. -/
def mixByte (acc : Word) (b : UInt8) : Word :=
  (acc ^^^ (ofBytes [b] * prime5)).rotateLeft 11 * prime1

/-- The closing shifts and multiplications. -/
def avalanche (acc : Word) : Word :=
  let a := (acc ^^^ (acc >>> 33)) * prime2
  let b := (a ^^^ (a >>> 29)) * prime3
  b ^^^ (b >>> 32)

/-- The accumulator after the stripes. -/
def afterStripes (p : Parts) (seed : Word) : Word :=
  match p.stripes with
  | [] => seed + prime5
  | s :: ss => ((s :: ss).foldl Lanes.stripe (Lanes.init seed)).combine

/-- The hash of data under a seed. -/
def hash (p : Parts) (seed : Word) : Word :=
  let acc := afterStripes p seed + BitVec.ofNat 64 p.toList.length
  let acc := p.lanes.foldl mixLane acc
  let acc := p.half.elim acc (mixHalf acc)
  avalanche (p.bytes.foldl mixByte acc)

end Words

/-! ### Numbers and words -/

@[simp] theorem and_mask (n : Nat) : n &&& mask = n % 2 ^ 64 := Nat.and_two_pow_sub_one_eq_mod n 64

/-- On a word, rotation by shifts is rotation. -/
theorem toNat_rotateLeft (w : Words.Word) {r : Nat} (hr : r < 64) :
    rotateLeft w.toNat r = (w.rotateLeft r).toNat := by
  have hbound : ((w <<< r) ||| (w >>> (64 - r))).toNat < 2 ^ 64 := BitVec.isLt _
  rw [BitVec.toNat_or, BitVec.toNat_shiftLeft, BitVec.toNat_ushiftRight] at hbound
  rw [rotateLeft, and_mask, and_mask, Nat.mod_eq_of_lt hbound, BitVec.rotateLeft_def,
    Nat.mod_eq_of_lt hr, BitVec.toNat_or, BitVec.toNat_shiftLeft, BitVec.toNat_ushiftRight]

theorem fromBytes_eq (bs : List UInt8) : fromBytes bs = Nat.ofDigits 256 (bs.map UInt8.toNat) := by
  induction bs with
  | nil => rfl
  | cons b bs ih => rw [fromBytes, List.map_cons, Nat.ofDigits_cons, ih]

/-- Up to eight bytes make a number that is a word. -/
theorem fromBytes_eq_toNat {bs : List UInt8} (h : bs.length ≤ 8) :
    fromBytes bs = (Words.ofBytes bs).toNat := by
  have hlt : Nat.ofDigits 256 (bs.map UInt8.toNat) < 256 ^ bs.length := by
    have hlength : (bs.map UInt8.toNat).length = bs.length := List.length_map ..
    rw [← hlength]
    refine Nat.ofDigits_lt_base_pow_length (by decide) fun n hn => ?_
    obtain ⟨b, -, rfl⟩ := List.mem_map.1 hn
    exact b.toNat_lt
  have hpow : 256 ^ bs.length ≤ 2 ^ 64 := by
    calc 256 ^ bs.length ≤ 256 ^ 8 := Nat.pow_le_pow_right (by decide) h
      _ = 2 ^ 64 := by decide
  rw [fromBytes_eq, Words.ofBytes, BitVec.toNat_ofNat, Nat.mod_eq_of_lt (lt_of_lt_of_le hlt hpow)]

@[simp] theorem toNat_prime1 : Words.prime1.toNat = prime1 := rfl
@[simp] theorem toNat_prime2 : Words.prime2.toNat = prime2 := rfl
@[simp] theorem toNat_prime3 : Words.prime3.toNat = prime3 := rfl
@[simp] theorem toNat_prime4 : Words.prime4.toNat = prime4 := rfl
@[simp] theorem toNat_prime5 : Words.prime5.toNat = prime5 := rfl

theorem maskInt_eq_toNat (n : Int) : maskInt n = (BitVec.ofInt 64 n).toNat := by
  rw [BitVec.toNat_ofInt]
  rfl

/-! ### Each step -/

section

open Words

theorem toNat_round (acc lane : Word) :
    round acc.toNat lane.toNat = (Words.round acc lane).toNat := by
  have hsum : (acc.toNat + lane.toNat * prime2) &&& mask = (acc + lane * Words.prime2).toNat := by
    rw [and_mask, BitVec.toNat_add, BitVec.toNat_mul, toNat_prime2, Nat.add_mod_mod]
  rw [round, hsum, toNat_rotateLeft _ (by decide), and_mask, Words.round, BitVec.toNat_mul,
    toNat_prime1]

theorem toNat_merge (acc v : Word) :
    merge acc.toNat v.toNat = (Words.merge acc v).toNat := by
  have hround : round 0 v.toNat = (Words.round 0 v).toNat := toNat_round 0 v
  rw [merge, hround, ← BitVec.toNat_xor, and_mask, Words.merge, BitVec.toNat_add, BitVec.toNat_mul,
    toNat_prime1, toNat_prime4, Nat.mod_add_mod]

theorem toNat_mixLane (acc : Word) (lane : Vector UInt8 8) :
    mixLane acc.toNat lane.toList = (Words.mixLane acc lane).toNat := by
  have hround : round 0 (fromBytes lane.toList) = (Words.round 0 (ofBytes lane.toList)).toNat := by
    rw [fromBytes_eq_toNat (by simp)]
    exact toNat_round 0 _
  rw [mixLane, hround, ← BitVec.toNat_xor, toNat_rotateLeft _ (by decide), and_mask, Words.mixLane,
    BitVec.toNat_add, BitVec.toNat_mul, toNat_prime1, toNat_prime4, Nat.mod_add_mod]

theorem toNat_mixHalf (acc : Word) (half : Vector UInt8 4) :
    mixHalf acc.toNat half.toList = (Words.mixHalf acc half).toNat := by
  have hproduct : (fromBytes half.toList * prime1) &&& mask =
      (ofBytes half.toList * Words.prime1).toNat := by
    rw [fromBytes_eq_toNat (by simp), and_mask, BitVec.toNat_mul, toNat_prime1]
  rw [mixHalf, hproduct, ← BitVec.toNat_xor, toNat_rotateLeft _ (by decide), and_mask,
    Words.mixHalf, BitVec.toNat_add, BitVec.toNat_mul, toNat_prime2, toNat_prime3, Nat.mod_add_mod]

theorem toNat_mixByte (acc : Word) (b : UInt8) :
    mixByte acc.toNat b = (Words.mixByte acc b).toNat := by
  have hproduct : (b.toNat * prime5) &&& mask = (ofBytes [b] * Words.prime5).toNat := by
    have hbyte : b.toNat = (ofBytes [b]).toNat := by
      rw [← fromBytes_eq_toNat (by simp), fromBytes, fromBytes]
      rfl
    rw [hbyte, and_mask, BitVec.toNat_mul, toNat_prime5]
  rw [mixByte, hproduct, ← BitVec.toNat_xor, toNat_rotateLeft _ (by decide), and_mask,
    Words.mixByte, BitVec.toNat_mul, toNat_prime1]

theorem toNat_shiftXor (w : Word) (r : Nat) : w.toNat ^^^ (w.toNat >>> r) = (w ^^^ (w >>> r)).toNat := by
  rw [BitVec.toNat_xor, BitVec.toNat_ushiftRight]

theorem toNat_product (w p : Word) : (w.toNat * p.toNat) &&& mask = (w * p).toNat := by
  rw [and_mask, BitVec.toNat_mul]

theorem toNat_avalanche (acc : Word) : avalanche acc.toNat = (Words.avalanche acc).toNat := by
  rw [avalanche, ← toNat_prime2, ← toNat_prime3, Words.avalanche]
  simp only [toNat_shiftXor, toNat_product]

/-! ### Stripes -/

/-- The numbers that four words stand for. -/
def Words.Lanes.toNat (l : Words.Lanes) : XxHash64.Lanes :=
  ⟨l.v1.toNat, l.v2.toNat, l.v3.toNat, l.v4.toNat⟩

theorem toNat_init (seed : Word) : Lanes.init seed.toNat = (Words.Lanes.init seed).toNat := by
  have hfirst : (seed.toNat + prime1 + prime2) &&& mask =
      (seed + Words.prime1 + Words.prime2).toNat := by
    rw [and_mask, BitVec.toNat_add, BitVec.toNat_add, toNat_prime1, toNat_prime2, Nat.mod_add_mod]
  have hsecond : (seed.toNat + prime2) &&& mask = (seed + Words.prime2).toNat := by
    rw [and_mask, BitVec.toNat_add, toNat_prime2]
  have hfourth : maskInt ((seed.toNat : Int) - prime1) = (seed - Words.prime1).toNat := by
    have hseed := seed.isLt
    rw [maskInt, BitVec.toNat_sub, toNat_prime1, prime1]
    omega
  rw [Lanes.init, hfirst, hsecond, hfourth]
  rfl

theorem toNat_stripe (l : Words.Lanes) (s : Vector UInt8 32) (rest : List UInt8) :
    l.toNat.stripe (s.toList ++ rest) = (l.stripe s).toNat := by
  have hlane : ∀ i, i + 8 ≤ 32 → ((s.toList ++ rest).drop i).take 8 = (s.toList.drop i).take 8 := by
    intro i hi
    rw [List.drop_append_of_le_length (by simp; omega), List.take_append_of_le_length (by simp; omega)]
  have hround : ∀ (acc : Word) i, round acc.toNat (fromBytes ((s.toList.drop i).take 8)) =
      (Words.round acc (ofBytes ((s.toList.drop i).take 8))).toNat := by
    intro acc i
    rw [fromBytes_eq_toNat (List.length_take_le ..), toNat_round]
  have hfirst := hlane 0 (by decide)
  simp only [List.drop_zero] at hfirst
  have hround0 := hround l.v1 0
  simp only [List.drop_zero] at hround0
  simp only [Lanes.stripe, Words.Lanes.stripe, Words.Lanes.toNat, hfirst, hlane 8 (by decide),
    hlane 16 (by decide), hlane 24 (by decide), hround, hround0]

theorem toNat_combine (l : Words.Lanes) : l.toNat.combine = l.combine.toNat := by
  have hsum : (rotateLeft l.v1.toNat 1 + rotateLeft l.v2.toNat 7 + rotateLeft l.v3.toNat 12 +
      rotateLeft l.v4.toNat 18) &&& mask =
        (l.v1.rotateLeft 1 + l.v2.rotateLeft 7 + l.v3.rotateLeft 12 + l.v4.rotateLeft 18).toNat := by
    simp only [and_mask, toNat_rotateLeft _ (show 1 < 64 by decide),
      toNat_rotateLeft _ (show 7 < 64 by decide), toNat_rotateLeft _ (show 12 < 64 by decide),
      toNat_rotateLeft _ (show 18 < 64 by decide), BitVec.toNat_add, Nat.mod_add_mod]
  simp only [Lanes.combine, Words.Lanes.combine, Words.Lanes.toNat, hsum, toNat_merge]

/-- The loop takes in the stripes and leaves what is less than one. -/
theorem stripes_eq : ∀ (ss : List (Vector UInt8 32)) (l : Words.Lanes) {rest : List UInt8},
    rest.length < 32 → stripes l.toNat (ss.flatMap Vector.toList ++ rest) =
      ((ss.foldl Words.Lanes.stripe l).toNat, rest)
  | [], l, rest, h => by
    rw [stripes, if_neg (by simpa using h)]
    rfl
  | s :: ss, l, rest, h => by
    have hdrop : (s.toList ++ (ss.flatMap Vector.toList ++ rest)).drop 32 =
        ss.flatMap Vector.toList ++ rest := List.drop_left' (by simp)
    rw [List.flatMap_cons, List.append_assoc, stripes, if_pos (by simp), toNat_stripe, hdrop,
      stripes_eq ss (l.stripe s) h]
    rfl

/-! ### The rest -/

/-- Single bytes, one after the other. -/
theorem foldl_mixByte (bs : List UInt8) (acc : Word) :
    bs.foldl mixByte acc.toNat = (bs.foldl Words.mixByte acc).toNat := by
  induction bs generalizing acc with
  | nil => rfl
  | cons b bs ih => rw [List.foldl_cons, List.foldl_cons, toNat_mixByte, ih]

theorem tailHalf_eq (acc : Word) (half : Option (Vector UInt8 4)) {bs : List UInt8}
    (h : bs.length < 4) : tailHalf acc.toNat (half.elim [] Vector.toList ++ bs) =
      (bs.foldl Words.mixByte (half.elim acc (Words.mixHalf acc))).toNat := by
  cases half with
  | none =>
    rw [tailHalf, if_neg (by simpa using h)]
    exact foldl_mixByte bs acc
  | some half =>
    have htake : (half.toList ++ bs).take 4 = half.toList := List.take_left' (by simp)
    have hdrop : (half.toList ++ bs).drop 4 = bs := List.drop_left' (by simp)
    show tailHalf acc.toNat (half.toList ++ bs) = _
    rw [tailHalf, if_pos (by simp), htake, hdrop, toNat_mixHalf]
    exact foldl_mixByte bs _

/-- The loop takes in the lanes and goes on with what is less than one. -/
theorem tail_eq : ∀ (lanes : List (Vector UInt8 8)) (acc : Word) {rest : List UInt8},
    rest.length < 8 → tail acc.toNat (lanes.flatMap Vector.toList ++ rest) =
      tailHalf (lanes.foldl Words.mixLane acc).toNat rest
  | [], acc, rest, h => by
    rw [tail, if_neg (by simpa using h)]
    rfl
  | lane :: lanes, acc, rest, h => by
    have htake : (lane.toList ++ (lanes.flatMap Vector.toList ++ rest)).take 8 = lane.toList :=
      List.take_left' (by simp)
    have hdrop : (lane.toList ++ (lanes.flatMap Vector.toList ++ rest)).drop 8 =
        lanes.flatMap Vector.toList ++ rest := List.drop_left' (by simp)
    rw [List.flatMap_cons, List.append_assoc, tail, if_pos (by simp), htake, hdrop, toNat_mixLane,
      List.foldl_cons]
    exact tail_eq lanes _ h

/-! ### The parts of the data -/

theorem length_flatMap_toList {n : Nat} (vs : List (Vector UInt8 n)) :
    (vs.flatMap Vector.toList).length = vs.length * n := by
  induction vs with
  | nil => simp
  | cons v vs ih => simp [ih, Nat.add_mul, Nat.add_comm]

/-- Data are full chunks of a size and less than one of them. -/
theorem exists_chunks {n : Nat} (hn : 0 < n) (data : List UInt8) :
    ∃ (vs : List (Vector UInt8 n)) (rest : List UInt8),
      data = vs.flatMap Vector.toList ++ rest ∧ rest.length < n := by
  by_cases hshort : data.length < n
  · exact ⟨[], data, rfl, hshort⟩
  · have hdrop : (data.drop n).length < data.length := by
      rw [List.length_drop]
      omega
    obtain ⟨vs, rest, hdata, hrest⟩ := exists_chunks hn (data.drop n)
    have hlength : (data.take n).length = n := List.length_take_of_le (Nat.le_of_not_lt hshort)
    refine ⟨⟨(data.take n).toArray, by simpa using hlength⟩ :: vs, rest, ?_, hrest⟩
    rw [List.flatMap_cons, List.append_assoc, ← hdata]
    exact (List.take_append_drop n data).symm
termination_by data.length

/-- Every data can be split into parts. -/
theorem exists_parts (data : List UInt8) : ∃ p : Parts, p.toList = data := by
  obtain ⟨stripes, rest, rfl, hrest⟩ := exists_chunks (show 0 < 32 by decide) data
  obtain ⟨lanes, rest, rfl, hless⟩ := exists_chunks (show 0 < 8 by decide) rest
  have hlanes : lanes.length < 4 := by
    rw [List.length_append, length_flatMap_toList] at hrest
    omega
  by_cases hhalf : rest.length < 4
  · exact ⟨⟨stripes, lanes, none, rest, hlanes, hhalf⟩, rfl⟩
  · have htake : (rest.take 4).length = 4 := List.length_take_of_le (Nat.le_of_not_lt hhalf)
    have hbytes : (rest.drop 4).length < 4 := by
      rw [List.length_drop]
      omega
    refine ⟨⟨stripes, lanes, some ⟨(rest.take 4).toArray, by simpa using htake⟩, rest.drop 4,
      hlanes, hbytes⟩, ?_⟩
    show stripes.flatMap Vector.toList ++ (lanes.flatMap Vector.toList ++
      (rest.take 4 ++ rest.drop 4)) = _
    rw [List.take_append_drop]

/-- What is left after the lanes is less than one. -/
theorem Parts.length_last (p : Parts) : (p.half.elim [] Vector.toList ++ p.bytes).length < 8 := by
  have hbytes := p.bytes_lt
  cases p.half with
  | none => exact Nat.lt_of_lt_of_le hbytes (by decide)
  | some half =>
    rw [Option.elim_some, List.length_append, Vector.length_toList]
    omega

/-- What is left after the stripes is less than one. -/
theorem Parts.length_rest (p : Parts) : (p.lanes.flatMap Vector.toList ++
    (p.half.elim [] Vector.toList ++ p.bytes)).length < 32 := by
  have hlanes := p.lanes_lt
  have hrest := p.length_last
  rw [List.length_append, length_flatMap_toList]
  omega

/-- The function of parts is the function of their bytes. -/
theorem hash_toList (p : Parts) (seed : Int) :
    hash p.toList seed = (Words.hash p (BitVec.ofInt 64 seed)).toNat := by
  have hcount : ∀ acc : Word, (acc.toNat + p.toList.length) &&& mask =
      (acc + BitVec.ofNat 64 p.toList.length).toNat := by
    intro acc
    rw [and_mask, BitVec.toNat_add, BitVec.toNat_ofNat, Nat.add_mod_mod]
  have htail : ∀ acc : Word, avalanche (tail acc.toNat (p.lanes.flatMap Vector.toList ++
      (p.half.elim [] Vector.toList ++ p.bytes))) =
        (Words.avalanche (p.bytes.foldl Words.mixByte
          (p.half.elim (p.lanes.foldl Words.mixLane acc)
            (Words.mixHalf (p.lanes.foldl Words.mixLane acc))))).toNat := by
    intro acc
    rw [tail_eq p.lanes acc p.length_last, tailHalf_eq _ p.half p.bytes_lt, toNat_avalanche]
  rw [hash, maskInt_eq_toNat, Words.hash]
  cases hstripes : p.stripes with
  | nil =>
    have hlist : p.toList = p.lanes.flatMap Vector.toList ++
        (p.half.elim [] Vector.toList ++ p.bytes) := by simp [Parts.toList, hstripes]
    have hstart : ((BitVec.ofInt 64 seed).toNat + prime5) &&& mask =
        (Words.afterStripes p (BitVec.ofInt 64 seed)).toNat := by
      rw [Words.afterStripes, hstripes, and_mask, BitVec.toNat_add, toNat_prime5]
    rw [if_neg (by rw [hlist]; exact Nat.not_le.2 p.length_rest), hstart, hcount, ← htail, hlist]
  | cons s ss =>
    have hloop : stripes (Lanes.init (BitVec.ofInt 64 seed).toNat) p.toList =
        ((p.stripes.foldl Words.Lanes.stripe (Words.Lanes.init (BitVec.ofInt 64 seed))).toNat,
          p.lanes.flatMap Vector.toList ++ (p.half.elim [] Vector.toList ++ p.bytes)) := by
      rw [toNat_init]
      exact stripes_eq p.stripes _ p.length_rest
    have hcombine : ((p.stripes.foldl Words.Lanes.stripe
        (Words.Lanes.init (BitVec.ofInt 64 seed))).toNat).combine =
          (Words.afterStripes p (BitVec.ofInt 64 seed)).toNat := by
      simp only [toNat_combine, Words.afterStripes, hstripes]
    rw [if_pos (by simp [Parts.toList, hstripes]), hloop]
    simp only [hcombine, hcount]
    exact htail _

end

/-- The function on numbers with masks is the function on words, whatever the parts of the data; it gives a
number of 64 bits. -/
theorem hash_parts (data : List UInt8) (seed : Int) :
    (∃ p : Parts, p.toList = data) ∧
      (∀ p : Parts, p.toList = data →
        hash data seed = (Words.hash p (BitVec.ofInt 64 seed)).toNat) ∧
      hash data seed < 2 ^ 64 := by
  obtain ⟨p, rfl⟩ := exists_parts data
  refine ⟨⟨p, rfl⟩, fun q hq => ?_, ?_⟩
  · rw [← hq, hash_toList]
  · rw [hash_toList]
    exact BitVec.isLt _

example : hash [] 0 = 0xEF46DB3751D8E999 := by decide +kernel

end TraitLift.Hash.XxHash64
