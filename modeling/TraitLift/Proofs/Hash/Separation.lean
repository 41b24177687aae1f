import Mathlib.Tactic
import TraitLift.Proofs.Hash.XxHash64

/-!
What the hash tells apart. Every step behind the stripes can be undone: multiplication by a number that
has an inverse, rotation, and xor with the own bits shifted down (`xor_ushiftRight_injective`). So nothing
of the accumulator is lost on the way to the hash (`finish_injective`), and neither is anything of a
single chunk. Short data hash differently under seeds that are different words, and under one seed data
that differ in one chunk behind the stripes do (`hash_separates`).
-/

namespace TraitLift.Hash.XxHash64

namespace Words

/-! ### Steps that can be undone -/

theorem mul_injective {p : Word} (q : Word) (h : p * q = 1#64) : Function.Injective (· * p) := by
  intro x y hxy
  have hcancel : ∀ w : Word, w * p * q = w := fun w => by rw [BitVec.mul_assoc, h, BitVec.mul_one]
  calc x = x * p * q := (hcancel x).symm
    _ = y * p * q := congrArg (· * q) hxy
    _ = y := hcancel y

theorem mul_prime1_injective : Function.Injective (· * prime1) :=
  mul_injective 0x0887493432BADB37 (by decide)

theorem mul_prime2_injective : Function.Injective (· * prime2) :=
  mul_injective 0x0BA79078168D4BAF (by decide)

theorem mul_prime3_injective : Function.Injective (· * prime3) :=
  mul_injective 0xE9E9F4C41D6DF849 (by decide)

theorem mul_prime5_injective : Function.Injective (· * prime5) :=
  mul_injective 0xC592C09FDFBA7F0D (by decide)

/-- Rotation moves every bit to a place of its own. -/
theorem rotateLeft_injective {r : Nat} (hr : r < 64) :
    Function.Injective fun w : Word => w.rotateLeft r := by
  intro x y h
  have hbit : ∀ i, (x.rotateLeft r).getLsbD i = (y.rotateLeft r).getLsbD i := fun i =>
    congrArg (BitVec.getLsbD · i) h
  simp only [BitVec.getLsbD_rotateLeft, Nat.mod_eq_of_lt hr] at hbit
  refine BitVec.eq_of_getLsbD_eq fun j hj => ?_
  by_cases hwrap : j + r < 64
  · have hmoved := hbit (j + r)
    rwa [decide_eq_false (by omega), decide_eq_true hwrap, cond_false, cond_false, Bool.true_and,
      Bool.true_and, Nat.add_sub_cancel] at hmoved
  · have hmoved := hbit (j + r - 64)
    have hback : 64 - r + (j + r - 64) = j := by omega
    rwa [decide_eq_true (by omega), cond_true, cond_true, hback] at hmoved

/-- Of two words with the same image the difference is its own half, quarter and so on. -/
theorem xor_ushiftRight_injective {r : Nat} (hr : 0 < r) :
    Function.Injective fun w : Word => w ^^^ (w >>> r) := by
  intro x y h
  have hshift : (x ^^^ y) >>> r = x ^^^ y := by
    have h : x ^^^ (x >>> r) = y ^^^ (y >>> r) := h
    calc (x ^^^ y) >>> r = x ^^^ (x ^^^ (x >>> r)) ^^^ (y >>> r) := by
          rw [BitVec.ushiftRight_xor_distrib, ← BitVec.xor_assoc x, BitVec.xor_self, BitVec.zero_xor]
      _ = x ^^^ (y ^^^ (y >>> r)) ^^^ (y >>> r) := by rw [h]
      _ = x ^^^ y := by
          rw [BitVec.xor_assoc, BitVec.xor_assoc, BitVec.xor_self, BitVec.xor_zero]
  have hzero : (x ^^^ y).toNat = 0 := by
    by_contra hne
    have hless := Nat.div_lt_self (Nat.pos_of_ne_zero hne) (Nat.one_lt_two_pow (Nat.ne_of_gt hr))
    rw [← Nat.shiftRight_eq_div_pow, ← BitVec.toNat_ushiftRight, hshift] at hless
    exact Nat.lt_irrefl _ hless
  exact BitVec.xor_eq_zero_iff.1 (BitVec.eq_of_toNat_eq hzero)

/-! ### The accumulator -/

theorem mixLane_injective (lane : Vector UInt8 8) : Function.Injective (mixLane · lane) := by
  intro x y h
  have hrotated := mul_prime1_injective ((BitVec.add_left_inj _).1 h)
  exact (BitVec.xor_left_inj _).1 (rotateLeft_injective (by decide) hrotated)

theorem mixHalf_injective (half : Vector UInt8 4) : Function.Injective (mixHalf · half) := by
  intro x y h
  have hrotated := mul_prime2_injective ((BitVec.add_left_inj _).1 h)
  exact (BitVec.xor_left_inj _).1 (rotateLeft_injective (by decide) hrotated)

theorem mixByte_injective (b : UInt8) : Function.Injective (mixByte · b) := by
  intro x y h
  exact (BitVec.xor_left_inj _).1 (rotateLeft_injective (by decide) (mul_prime1_injective h))

theorem avalanche_injective : Function.Injective avalanche := by
  intro x y h
  have hthird := mul_prime3_injective (xor_ushiftRight_injective (r := 32) (by decide) h)
  have hsecond := mul_prime2_injective (xor_ushiftRight_injective (r := 29) (by decide) hthird)
  exact xor_ushiftRight_injective (r := 33) (by decide) hsecond

theorem foldl_injective {β : Type} {f : Word → β → Word} (hf : ∀ b, Function.Injective (f · b)) :
    ∀ bs : List β, Function.Injective fun acc => bs.foldl f acc
  | [], _, _, h => h
  | b :: bs, _, _, h => hf b (foldl_injective hf bs h)

/-- The steps behind the stripes. -/
def finish (lanes : List (Vector UInt8 8)) (half : Option (Vector UInt8 4)) (bytes : List UInt8)
    (acc : Word) : Word :=
  let acc := lanes.foldl mixLane acc
  avalanche (bytes.foldl mixByte (half.elim acc (mixHalf acc)))

theorem finish_injective (lanes : List (Vector UInt8 8)) (half : Option (Vector UInt8 4))
    (bytes : List UInt8) : Function.Injective (finish lanes half bytes) := by
  intro x y h
  have hbytes := foldl_injective mixByte_injective bytes (avalanche_injective h)
  cases half with
  | none => exact foldl_injective mixLane_injective lanes hbytes
  | some half => exact foldl_injective mixLane_injective lanes (mixHalf_injective half hbytes)

/-! ### A chunk -/

/-- As many bytes, eight at most, make the same word only if they are the same. -/
theorem ofBytes_injective {bs bs' : List UInt8} (hlength : bs.length = bs'.length)
    (hle : bs.length ≤ 8) (h : ofBytes bs = ofBytes bs') : bs = bs' := by
  have hdigits : ∀ {cs : List UInt8}, ∀ n ∈ cs.map UInt8.toNat, n < 256 := by
    intro cs n hn
    obtain ⟨b, -, rfl⟩ := List.mem_map.1 hn
    exact b.toNat_lt
  have hnumber : fromBytes bs = fromBytes bs' := by
    rw [fromBytes_eq_toNat hle, fromBytes_eq_toNat (hlength ▸ hle), h]
  rw [fromBytes_eq, fromBytes_eq] at hnumber
  have hmap := Nat.ofDigits_inj_of_len_eq (by decide) (by simpa using hlength) hdigits hdigits hnumber
  exact List.map_injective_iff.2 (fun _ _ => UInt8.toNat_inj.1) hmap

variable {acc : Word} {lanes lanes' : List (Vector UInt8 8)} {half : Option (Vector UInt8 4)}
  {bytes bytes' : List UInt8}

theorem lane_eq_of_finish {l l' : Vector UInt8 8}
    (h : finish (lanes ++ l :: lanes') half bytes acc = finish (lanes ++ l' :: lanes') half bytes acc) :
    l = l' := by
  rw [finish, finish, List.foldl_append, List.foldl_append, List.foldl_cons, List.foldl_cons] at h
  have hmix := finish_injective lanes' half bytes h
  have hround := rotateLeft_injective (by decide) (mul_prime1_injective ((BitVec.add_left_inj _).1 hmix))
  have hlane := rotateLeft_injective (by decide) (mul_prime1_injective ((BitVec.xor_right_inj _).1 hround))
  have hbytes := mul_prime2_injective ((BitVec.add_right_inj _).1 hlane)
  exact Vector.toList_inj.1 (ofBytes_injective (by simp) (by simp) hbytes)

theorem half_eq_of_finish {l l' : Vector UInt8 4}
    (h : finish lanes (some l) bytes acc = finish lanes (some l') bytes acc) : l = l' := by
  have hmix := foldl_injective mixByte_injective bytes (avalanche_injective h)
  have hxor := rotateLeft_injective (by decide) (mul_prime2_injective ((BitVec.add_left_inj _).1 hmix))
  have hbytes := mul_prime1_injective ((BitVec.xor_right_inj _).1 hxor)
  exact Vector.toList_inj.1 (ofBytes_injective (by simp) (by simp) hbytes)

theorem byte_eq_of_finish {b b' : UInt8}
    (h : finish lanes half (bytes ++ b :: bytes') acc = finish lanes half (bytes ++ b' :: bytes') acc) :
    b = b' := by
  rw [finish, finish, List.foldl_append, List.foldl_append, List.foldl_cons, List.foldl_cons] at h
  have hmix := foldl_injective mixByte_injective bytes' (avalanche_injective h)
  have hxor := rotateLeft_injective (by decide) (mul_prime1_injective hmix)
  have hbytes := mul_prime5_injective ((BitVec.xor_right_inj _).1 hxor)
  exact List.singleton_inj.1 (ofBytes_injective rfl (by simp) hbytes)

/-- Data of one length that have their stripes in common come to the rest with one accumulator. -/
theorem exists_finish {p q : Parts} (hstripes : p.stripes = q.stripes)
    (hlength : p.toList.length = q.toList.length) (seed : Word) : ∃ acc,
      hash p seed = finish p.lanes p.half p.bytes acc ∧
      hash q seed = finish q.lanes q.half q.bytes acc := by
  refine ⟨afterStripes q seed + BitVec.ofNat 64 q.toList.length, ?_, rfl⟩
  rw [← hlength]
  have hafter : afterStripes p seed = afterStripes q seed := by
    simp only [afterStripes, hstripes]
  rw [← hafter]
  rfl

end Words

/-! ### Data -/

/-- The chunks in which `n` bytes are taken in behind the stripes, each by its offset and its width. -/
inductive TailChunk (n : Nat) : Nat → Nat → Prop where
  | lane {i : Nat} : i < n % 32 / 8 → TailChunk n (n / 32 * 32 + i * 8) 8
  | half : 4 ≤ n % 8 → TailChunk n (n / 8 * 8) 4
  | byte {i : Nat} : i < n % 4 → TailChunk n (n / 4 * 4 + i) 1

/-- How many parts of each kind the data have. -/
theorem Parts.counts (p : Parts) :
    p.stripes.length = p.toList.length / 32 ∧ p.lanes.length = p.toList.length % 32 / 8 ∧
      p.half.isSome = decide (4 ≤ p.toList.length % 8) ∧ p.bytes.length = p.toList.length % 4 := by
  have hlanes := p.lanes_lt
  have hbytes := p.bytes_lt
  cases hhalf : p.half with
  | none =>
    simp only [Parts.toList, hhalf, List.length_append, length_flatMap_toList, Option.elim_none,
      List.length_nil, Option.isSome_none]
    refine ⟨by omega, by omega, ?_, by omega⟩
    rw [eq_comm, decide_eq_false_iff_not]
    omega
  | some half =>
    simp only [Parts.toList, hhalf, List.length_append, length_flatMap_toList, Option.elim_some,
      Vector.length_toList, Option.isSome_some]
    refine ⟨by omega, by omega, ?_, by omega⟩
    rw [eq_comm, decide_eq_true_iff]
    omega

/-- Data that agree with others outside a chunk have some chunk of the same width there. -/
theorem exists_chunk {data data' front chunk back : List UInt8} {k w : Nat}
    (hlength : data.length = data'.length) (htake : data.take k = data'.take k)
    (hdrop : data.drop (k + w) = data'.drop (k + w)) (hdata : data = front ++ (chunk ++ back))
    (hk : front.length = k) (hw : chunk.length = w) :
    ∃ chunk' : List UInt8, chunk'.length = w ∧ data' = front ++ (chunk' ++ back) := by
  subst hdata hk hw
  rw [List.take_left] at htake
  rw [← List.drop_drop, List.drop_left, List.drop_left, ← List.drop_drop] at hdrop
  refine ⟨(data'.drop front.length).take chunk.length, ?_, ?_⟩
  · rw [List.length_take_of_le]
    rw [List.length_drop, ← hlength, List.length_append, List.length_append]
    omega
  · calc data' = data'.take front.length ++ data'.drop front.length := (List.take_append_drop ..).symm
      _ = front ++ ((data'.drop front.length).take chunk.length ++
            (data'.drop front.length).drop chunk.length) := by rw [← htake, List.take_append_drop]
      _ = front ++ ((data'.drop front.length).take chunk.length ++ back) := by rw [← hdrop]

/-- A list is divided by the entry at an index. -/
theorem exists_append_of_lt {α : Type} {l : List α} {i : Nat} (h : i < l.length) :
    ∃ l₁ a l₂, l = l₁ ++ a :: l₂ ∧ l₁.length = i := by
  refine ⟨l.take i, l[i], l.drop (i + 1), ?_, List.length_take_of_le h.le⟩
  rw [← List.drop_eq_getElem_cons h, List.take_append_drop]

/-- A chunk behind the stripes can be exchanged for any of its width, and what the steps behind the
stripes make of an accumulator then tells the two chunks apart. -/
theorem Parts.exists_exchange (p : Parts) {k w : Nat} (h : TailChunk p.toList.length k w) :
    ∃ front chunk back, p.toList = front ++ (chunk ++ back) ∧ front.length = k ∧ chunk.length = w ∧
      ∀ chunk', chunk'.length = w → ∃ q : Parts, q.toList = front ++ (chunk' ++ back) ∧
        p.stripes = q.stripes ∧ ∀ acc, Words.finish p.lanes p.half p.bytes acc =
          Words.finish q.lanes q.half q.bytes acc → chunk = chunk' := by
  obtain ⟨hstripes, hlanes, hhalf, hbytes⟩ := p.counts
  obtain ⟨stripes, lanes, half, bytes, hl, hb⟩ := p
  simp only at hstripes hlanes hhalf hbytes
  cases h with
  | @lane i hi =>
    obtain ⟨lanes, l, lanes', rfl, rfl⟩ := exists_append_of_lt (hlanes ▸ hi)
    refine ⟨stripes.flatMap Vector.toList ++ lanes.flatMap Vector.toList, l.toList,
      lanes'.flatMap Vector.toList ++ (half.elim [] Vector.toList ++ bytes), by simp [Parts.toList],
      ?_, by simp, fun chunk' hwidth => ?_⟩
    · rw [List.length_append, length_flatMap_toList, length_flatMap_toList, hstripes]
    · refine ⟨⟨stripes, lanes ++ ⟨chunk'.toArray, by simpa using hwidth⟩ :: lanes', half, bytes,
        by simpa using hl, hb⟩, by simp [Parts.toList], rfl, fun acc heq => ?_⟩
      simp [Words.lane_eq_of_finish heq]
  | half hfour =>
    obtain ⟨l, rfl⟩ := Option.isSome_iff_exists.1 (hhalf.trans (decide_eq_true hfour))
    refine ⟨stripes.flatMap Vector.toList ++ lanes.flatMap Vector.toList, l.toList, bytes,
      by simp [Parts.toList], ?_, by simp, fun chunk' hwidth => ?_⟩
    · rw [List.length_append, length_flatMap_toList, length_flatMap_toList, hstripes, hlanes]
      omega
    · refine ⟨⟨stripes, lanes, some ⟨chunk'.toArray, by simpa using hwidth⟩, bytes, hl, hb⟩,
        by simp [Parts.toList], rfl, fun acc heq => ?_⟩
      simp [Words.half_eq_of_finish heq]
  | @byte i hi =>
    obtain ⟨bytes, b, bytes', rfl, rfl⟩ := exists_append_of_lt (hbytes ▸ hi)
    have hdata : Parts.toList ⟨stripes, lanes, half, bytes ++ b :: bytes', hl, hb⟩ =
        (stripes.flatMap Vector.toList ++ (lanes.flatMap Vector.toList ++
          (half.elim [] Vector.toList ++ bytes))) ++ ([b] ++ bytes') := by simp [Parts.toList]
    refine ⟨_, [b], bytes', hdata, ?_, rfl, fun chunk' hwidth => ?_⟩
    · -- the bytes are what is left of a number of half lanes
      have hlength := congrArg List.length hdata
      simp only [List.length_append, List.length_cons, List.length_nil] at hlength hbytes ⊢
      omega
    · obtain ⟨b', rfl⟩ := List.length_eq_one_iff.1 hwidth
      refine ⟨⟨stripes, lanes, half, bytes ++ b' :: bytes', hl, by simpa using hb⟩,
        by simp [Parts.toList], rfl, fun acc heq => ?_⟩
      rw [Words.byte_eq_of_finish heq]

/-- Data of one length that agree outside a chunk behind the stripes are the same if their hashes
are. -/
theorem eq_of_hash_eq {data data' : List UInt8} {seed : Int} {k w : Nat}
    (hlength : data.length = data'.length) (hchunk : TailChunk data.length k w)
    (htake : data.take k = data'.take k) (hdrop : data.drop (k + w) = data'.drop (k + w))
    (h : hash data seed = hash data' seed) : data = data' := by
  obtain ⟨p, rfl⟩ := exists_parts data
  obtain ⟨front, chunk, back, hdata, hk, hw, hexchange⟩ := p.exists_exchange hchunk
  obtain ⟨chunk', hwidth, rfl⟩ := exists_chunk hlength htake hdrop hdata hk hw
  obtain ⟨q, hq, hstripes, htell⟩ := hexchange chunk' hwidth
  rw [← hq] at hlength h
  obtain ⟨acc, hp, hq⟩ := Words.exists_finish hstripes hlength (BitVec.ofInt 64 seed)
  rw [hash_toList, hash_toList, hp, hq] at h
  rw [hdata, htell acc (BitVec.eq_of_toNat_eq h)]

/-- Data of less than a stripe have one hash under two seeds only if the seeds are the same word. -/
theorem seed_eq_of_hash_eq {data : List UInt8} {seed seed' : Int} (hshort : data.length < 32)
    (h : hash data seed = hash data seed') : seed % 2 ^ 64 = seed' % 2 ^ 64 := by
  obtain ⟨p, rfl⟩ := exists_parts data
  have hstripes : p.stripes = [] := by
    rw [← List.length_eq_zero_iff, p.counts.1]
    omega
  rw [hash_toList, hash_toList] at h
  have hfinish := Words.finish_injective p.lanes p.half p.bytes (BitVec.eq_of_toNat_eq h)
  rw [Words.afterStripes, Words.afterStripes, hstripes] at hfinish
  have hword := (BitVec.add_left_inj _).1 ((BitVec.add_left_inj _).1 hfinish)
  have hmask : maskInt seed = maskInt seed' := by rw [maskInt_eq_toNat, maskInt_eq_toNat, hword]
  rw [maskInt, maskInt] at hmask
  omega

/-- The hash keeps seeds and chunks apart. Data of less than a stripe hash differently under seeds that
differ in their lowest 64 bits; and data of one length that differ in one chunk behind the stripes, and
nowhere else, hash differently under every seed. -/
theorem hash_separates :
    (∀ (data : List UInt8) (seed seed' : Int), data.length < 32 → seed % 2 ^ 64 ≠ seed' % 2 ^ 64 →
      hash data seed ≠ hash data seed') ∧
    ∀ (data data' : List UInt8) (seed : Int) (k w : Nat), data.length = data'.length →
      TailChunk data.length k w → data.take k = data'.take k →
      data.drop (k + w) = data'.drop (k + w) → data ≠ data' → hash data seed ≠ hash data' seed :=
  ⟨fun _ _ _ hshort hseeds h => hseeds (seed_eq_of_hash_eq hshort h),
    fun _ _ _ _ _ hlength hchunk htake hdrop hne h =>
      hne (eq_of_hash_eq hlength hchunk htake hdrop h)⟩

/-- Thirteen zeros under a seed and its opposite; and forty-seven bytes, of which one in the half lane
behind a stripe and a lane differs. -/
theorem hash_separates_zeros :
    let data := List.replicate 47 (0 : UInt8)
    let data' := List.replicate 42 0 ++ 1 :: List.replicate 4 0
    hash (List.replicate 13 0) 1 ≠ hash (List.replicate 13 0) (-1) ∧ hash data 7 ≠ hash data' 7 := by
  intro data data'
  exact ⟨hash_separates.1 _ 1 (-1) (by decide) (by decide),
    hash_separates.2 data data' 7 40 4 rfl (TailChunk.half (show 4 ≤ 47 % 8 by decide)) (by decide)
      (by decide) (by decide)⟩

end TraitLift.Hash.XxHash64
