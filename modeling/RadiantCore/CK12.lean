import RadiantCore.Blob
import RadiantCore.BlockStream

/-!
# KangarooTwelve

The hash of a message with a customization string as its specification defines it. The bottom is
the permutation Keccak-p of 1600 bits with 12 rounds, on a square of 25 lanes of 64 bits. Over it
TurboSHAKE128 is a sponge with a rate of 168 bytes, whose padding starts with a domain byte. A
message that fits, with the suffix for the customization string, into one chunk of 8192 bytes is
hashed as it is. Otherwise the chunks after the first are hashed on their own, and the final node
is the first chunk followed by these chaining values.
-/

namespace KangarooTwelve

/-! ## The permutation -/

/-- The lanes of the state : the lane with the coordinates `x` and `y` is at `x + 5 * y`. -/
abbrev Lanes := Vector UInt64 25

/-- The lane at the coordinates `x` and `y`, taken modulo 5. -/
def lane (a : Lanes) (x y : ℕ) : UInt64 := a[x % 5 + 5 * (y % 5)]

/-- The state with given lanes. -/
def ofLanes (f : ℕ → ℕ → UInt64) : Lanes :=
  Vector.ofFn fun i : Fin 25 => f (i.val % 5) (i.val / 5)

/-- Rotation of a lane towards its high bits. -/
def rotl (x : UInt64) (n : ℕ) : UInt64 := ⟨x.toBitVec.rotateLeft n⟩

/-- The parity of a column. -/
def parity (a : Lanes) (x : ℕ) : UInt64 :=
  lane a x 0 ^^^ lane a x 1 ^^^ lane a x 2 ^^^ lane a x 3 ^^^ lane a x 4

/-- The step θ. -/
def theta (a : Lanes) : Lanes :=
  ofLanes fun x y => lane a x y ^^^ (parity a (x + 4) ^^^ rotl (parity a (x + 1)) 1)

/-- The offsets of the step ρ. -/
def rhoOffsets : Vector ℕ 25 :=
  #v[0, 1, 62, 28, 27, 36, 44, 6, 55, 20, 3, 10, 43, 25, 39, 41, 45, 15, 21, 8, 18, 2, 61, 56, 14]

/-- The step ρ. -/
def rho (a : Lanes) : Lanes := Vector.ofFn fun i : Fin 25 => rotl a[i] rhoOffsets[i]

/-- The step π. -/
def pi (a : Lanes) : Lanes := ofLanes fun x y => lane a (x + 3 * y) x

/-- The step χ. -/
def chi (a : Lanes) : Lanes :=
  ofLanes fun x y => lane a x y ^^^ (~~~lane a (x + 1) y &&& lane a (x + 2) y)

/-- One step of the shift register that makes the round constants. -/
def shiftRegister (r : ℕ) : ℕ := if 128 ≤ r then (2 * r) ^^^ 0x171 else 2 * r

/-- The constant of a round : its bits at the positions `2 ^ j - 1` come from the register. -/
def roundConstant (round : ℕ) : UInt64 :=
  UInt64.ofNat (((List.range 7).map fun j =>
    if (shiftRegister^[(j + 7 * round) % 255] 1).testBit 0 then 2 ^ (2 ^ j - 1) else 0).sum)

/-- The step ι. -/
def iota (rc : UInt64) (a : Lanes) : Lanes := a.set 0 (a[0] ^^^ rc)

/-- A round of the permutation. -/
def round (a : Lanes) (i : ℕ) : Lanes := iota (roundConstant i) (chi (pi (rho (theta a))))

/-- Keccak-p with 12 rounds, the last of the 24 of Keccak-f. -/
def keccakP (a : Lanes) : Lanes := (List.range' 12 12).foldl round a

/-! ## The sponge -/

/-- The number in the lane `i` of a string of bytes, in little-endian order. -/
def laneOfBytes (bytes : List UInt8) (i : ℕ) : UInt64 :=
  UInt64.ofNat (((List.range 8).map fun k => (bytes.getD (8 * i + k) 0).toNat * 256 ^ k).sum)

/-- The bytes of a lane. -/
def bytesOfLane (x : UInt64) : List UInt8 :=
  (List.range 8).map fun k => UInt8.ofNat (x.toNat / 256 ^ k)

/-- A block of at most 168 bytes is combined with the state, which is then permuted. -/
def absorb (a : Lanes) (block : List UInt8) : Lanes :=
  keccakP (Vector.ofFn fun i : Fin 25 => a[i] ^^^ laneOfBytes block i)

/-- The padding of a message : the domain byte, zeros up to a full block, and the highest bit of
the last byte. -/
def pad (m : List UInt8) (domain : UInt8) : List UInt8 :=
  let p := m ++ [domain] ++ List.replicate (167 - m.length % 168) 0
  p.modify (p.length - 1) (· ^^^ 0x80)

/-- The blocks that TurboSHAKE128 absorbs. -/
def spongeBlocks (m : List UInt8) (domain : UInt8) : List (List UInt8) :=
  BlockStream.blocks 168 (pad m domain)

/-- The last block of a message, which ends with `rest`. -/
def padLast (rest : List UInt8) (domain : UInt8) : List UInt8 :=
  (rest ++ [domain] ++ List.replicate (167 - rest.length) 0).modify 167 (· ^^^ 0x80)

theorem length_padLast {rest : List UInt8} (hrest : rest.length < 168) (domain : UInt8) :
    (padLast rest domain).length = 168 := by
  simp only [padLast, List.length_modify, List.length_append, List.length_singleton,
    List.length_replicate]
  omega

/-- The padding only concerns the last block. -/
theorem spongeBlocks_eq {m rest : List UInt8} {bs : List (List UInt8)}
    (hcut : BlockStream.Cut 168 m bs rest) (hrest : rest.length < 168) (domain : UInt8) :
    spongeBlocks m domain = bs ++ [padLast rest domain] := by
  have hlen := hcut.length
  have hmod : m.length % 168 = rest.length := by omega
  have hpad : pad m domain = bs.flatten ++ padLast rest domain := by
    have hend : (m ++ [domain] ++ List.replicate (167 - rest.length) 0).length - 1 =
        bs.flatten.length + 167 := by
      have hflat := congrArg List.length hcut.eq
      simp only [List.length_append, List.length_replicate, List.length_singleton] at hflat ⊢
      omega
    simp only [pad, hmod, padLast, hend]
    rw [← BlockStream.modify_append_add, ← List.append_assoc, ← List.append_assoc, ← hcut.eq]
  have hfull := length_padLast hrest domain
  have hcut' : BlockStream.Cut 168 (pad m domain) bs (padLast rest domain) :=
    ⟨hpad, hcut.length_eq, hfull.le⟩
  refine hcut'.blocks_eq (by decide) fun hnil => ?_
  rw [hnil] at hfull
  cases hfull

/-- The last byte that is not zero, below the padding bit, is the domain byte. -/
theorem domain_eq_of_padLast {rest rest' : List UInt8} {d d' : UInt8} (hd : d ≠ 0) (hd' : d' ≠ 0)
    (h : padLast rest d = padLast rest' d') : d = d' := by
  have hunmask : ∀ l : List UInt8, (l.modify 167 (· ^^^ 0x80)).modify 167 (· ^^^ 0x80) = l := by
    intro l
    refine List.ext_getElem (by simp) fun i hi hi' => ?_
    rw [List.getElem_modify, List.getElem_modify]
    split_ifs
    · rw [UInt8.xor_assoc, UInt8.xor_self, UInt8.xor_zero]
    · rfl
  have hfind : ∀ (rest : List UInt8) (d : UInt8) (n : ℕ), d ≠ 0 →
      ((rest ++ [d] ++ List.replicate n 0).reverse.find? (· ≠ 0)) = some d := by
    intro rest d n hd
    induction n with
    | zero => simp [hd]
    | succ n ih =>
      rw [List.replicate_succ', ← List.append_assoc, List.reverse_append, List.reverse_singleton,
        List.singleton_append, List.find?_cons_of_neg (by simp)]
      exact ih
  have hlists := congrArg (List.modify · 167 (· ^^^ 0x80)) h
  simp only [padLast, hunmask] at hlists
  have hfound := congrArg (fun l : List UInt8 => l.reverse.find? (· ≠ 0)) hlists
  simp only [hfind _ _ _ hd, hfind _ _ _ hd'] at hfound
  exact Option.some.inj hfound

/-- The domain byte can be read off the blocks. -/
theorem domain_eq_of_spongeBlocks {m m' : List UInt8} {d d' : UInt8} (hd : d ≠ 0) (hd' : d' ≠ 0)
    (h : spongeBlocks m d = spongeBlocks m' d') : d = d' := by
  obtain ⟨bs, rest, hcut, hrest⟩ := BlockStream.Cut.exists_rest_lt (r := 168) (by decide) m
  obtain ⟨bs', rest', hcut', hrest'⟩ := BlockStream.Cut.exists_rest_lt (r := 168) (by decide) m'
  rw [spongeBlocks_eq hcut hrest, spongeBlocks_eq hcut' hrest'] at h
  exact domain_eq_of_padLast hd hd' (List.append_singleton_inj.mp h).2

/-- The first 32 bytes of a state. -/
def squeeze (a : Lanes) : List UInt8 := (a.toList.take 4).flatMap bytesOfLane

/-- The first 32 bytes of TurboSHAKE128. -/
def turboShake128 (m : List UInt8) (domain : UInt8) : List UInt8 :=
  squeeze ((spongeBlocks m domain).foldl absorb (Vector.replicate 25 0))

theorem length_turboShake128 (m : List UInt8) (domain : UInt8) :
    (turboShake128 m domain).length = 32 := by
  simp [turboShake128, squeeze, bytesOfLane, List.length_flatMap]

/-! ## The hash -/

/-- `length_encode` : the bytes of a number without leading zeros, most significant first, and how
many they are. -/
def lengthEncode (x : ℕ) : List UInt8 :=
  let digits := (Nat.digits 256 x).reverse.map UInt8.ofNat
  digits ++ [UInt8.ofNat digits.length]

/-- The final node and its domain byte. -/
def finalNode (m c : List UInt8) : List UInt8 × UInt8 :=
  match BlockStream.blocks 8192 (m ++ c ++ lengthEncode c.length) with
  | [] => ([], 0x07)
  | [s] => (s, 0x07)
  | s :: chunks => (s ++ [3, 0, 0, 0, 0, 0, 0, 0] ++ chunks.flatMap (turboShake128 · 0x0B) ++
      lengthEncode chunks.length ++ [0xFF, 0xFF], 0x06)

/-- The KangarooTwelve hash, of 32 bytes, of a message with a customization string. -/
def hash (m c : List UInt8) : List UInt8 := turboShake128 (finalNode m c).1 (finalNode m c).2

theorem lengthEncode_zero : lengthEncode 0 = [0x00] := by simp [lengthEncode]

/-- A message that leaves space for the suffix in the first chunk is the only node. -/
theorem finalNode_of_lt {m : List UInt8} (hm : m.length < 8192) :
    finalNode m [] = (m ++ [0x00], 0x07) := by
  have hlen : (m ++ [0x00]).length ≤ 8192 := by simpa using hm
  rw [finalNode, List.append_nil, List.length_nil, lengthEncode_zero,
    BlockStream.blocks_of_length_le hlen]

/-- Otherwise there are several chunks, which the domain byte tells. -/
theorem finalNode_snd_of_le {m : List UInt8} (hm : 8192 ≤ m.length) :
    (finalNode m []).2 = 0x06 := by
  have hlen : ¬ (m ++ [0x00]).length ≤ 8192 := by
    rw [List.length_append, List.length_singleton]
    omega
  obtain ⟨s, chunks, hchunks⟩ := List.exists_cons_of_ne_nil
    (BlockStream.blocks_ne_nil (r := 8192) ((m ++ [0x00]).drop 8192))
  rw [finalNode, List.append_nil, List.length_nil, lengthEncode_zero, BlockStream.blocks,
    if_neg (by omega), hchunks]

end KangarooTwelve

/-!
# The implementation of KangarooTwelve

`CK12` of `crypto/k12.cpp`, the hasher of `OP_K12`. `Write` gathers the message in a buffer of
the rate of the sponge and absorbs it whenever it is full. `Finalize` appends the suffix of the
empty customization string and the padding of a message of one chunk, whatever its length was. The
state also records the blocks absorbed so far, which the source does not.
-/

namespace RadiantCore

open KangarooTwelve (Lanes)

namespace CK12

/-! ## The permutation -/

/-- `Rotl`. -/
def rotl (x n : UInt64) : UInt64 := (x <<< n) ||| (x >>> (64 - n))

/-- `RNDC`. -/
def rndc : Vector UInt64 12 :=
  #v[0x000000008000808b, 0x800000000000008b, 0x8000000000008089, 0x8000000000008003,
    0x8000000000008002, 0x8000000000000080, 0x000000000000800a, 0x800000008000000a,
    0x8000000080008081, 0x8000000000008080, 0x0000000080000001, 0x8000000080008008]

/-- The part `Theta` of a round. -/
def theta (st : Lanes) : Lanes :=
  let bc0 := st[0] ^^^ st[5] ^^^ st[10] ^^^ st[15] ^^^ st[20]
  let bc1 := st[1] ^^^ st[6] ^^^ st[11] ^^^ st[16] ^^^ st[21]
  let bc2 := st[2] ^^^ st[7] ^^^ st[12] ^^^ st[17] ^^^ st[22]
  let bc3 := st[3] ^^^ st[8] ^^^ st[13] ^^^ st[18] ^^^ st[23]
  let bc4 := st[4] ^^^ st[9] ^^^ st[14] ^^^ st[19] ^^^ st[24]
  let t0 := bc4 ^^^ rotl bc1 1
  let t1 := bc0 ^^^ rotl bc2 1
  let t2 := bc1 ^^^ rotl bc3 1
  let t3 := bc2 ^^^ rotl bc4 1
  let t4 := bc3 ^^^ rotl bc0 1
  #v[st[0] ^^^ t0, st[1] ^^^ t1, st[2] ^^^ t2, st[3] ^^^ t3, st[4] ^^^ t4,
    st[5] ^^^ t0, st[6] ^^^ t1, st[7] ^^^ t2, st[8] ^^^ t3, st[9] ^^^ t4,
    st[10] ^^^ t0, st[11] ^^^ t1, st[12] ^^^ t2, st[13] ^^^ t3, st[14] ^^^ t4,
    st[15] ^^^ t0, st[16] ^^^ t1, st[17] ^^^ t2, st[18] ^^^ t3, st[19] ^^^ t4,
    st[20] ^^^ t0, st[21] ^^^ t1, st[22] ^^^ t2, st[23] ^^^ t3, st[24] ^^^ t4]

/-- The lines of the part `Rho Pi` : where each lane goes and how far it is rotated. -/
def rhoPiLines : List (Fin 25 × UInt64) :=
  [(10, 1), (7, 3), (11, 6), (17, 10), (18, 15), (3, 21), (5, 28), (16, 36), (8, 45), (21, 55),
    (24, 2), (4, 14), (15, 27), (23, 41), (19, 56), (13, 8), (12, 25), (2, 43), (20, 62), (14, 18),
    (22, 39), (9, 61), (6, 20), (1, 44)]

/-- A line of the part `Rho Pi` : the lane in `t` takes the place of another one, which is next. -/
def rhoPiLine (s : Lanes × UInt64) (line : Fin 25 × UInt64) : Lanes × UInt64 :=
  (s.1.set line.1 (rotl s.2 line.2), s.1[line.1])

/-- The part `Rho Pi` of a round. -/
def rhoPi (st : Lanes) : Lanes := (rhoPiLines.foldl rhoPiLine (st, st[1])).1

/-- A row of the part `Chi Iota`. -/
def chiRow (bc0 bc1 bc2 bc3 bc4 : UInt64) : Vector UInt64 5 :=
  #v[bc0 ^^^ (~~~bc1 &&& bc2), bc1 ^^^ (~~~bc2 &&& bc3), bc2 ^^^ (~~~bc3 &&& bc4),
    bc3 ^^^ (~~~bc4 &&& bc0), bc4 ^^^ (~~~bc0 &&& bc1)]

/-- The part `Chi Iota` of a round. -/
def chiIota (st : Lanes) (rc : UInt64) : Lanes :=
  let r0 := chiRow st[0] st[1] st[2] st[3] st[4]
  let r1 := chiRow st[5] st[6] st[7] st[8] st[9]
  let r2 := chiRow st[10] st[11] st[12] st[13] st[14]
  let r3 := chiRow st[15] st[16] st[17] st[18] st[19]
  let r4 := chiRow st[20] st[21] st[22] st[23] st[24]
  #v[r0[0] ^^^ rc, r0[1], r0[2], r0[3], r0[4], r1[0], r1[1], r1[2], r1[3], r1[4],
    r2[0], r2[1], r2[2], r2[3], r2[4], r3[0], r3[1], r3[2], r3[3], r3[4],
    r4[0], r4[1], r4[2], r4[3], r4[4]]

/-- An iteration of the loop of `KeccakP12`. -/
def round (st : Lanes) (i : Fin 12) : Lanes := chiIota (rhoPi (theta st)) rndc[i]

/-- `KeccakP12`. -/
def keccakP12 (st : Lanes) : Lanes := (List.finRange 12).foldl round st

/-! ### It is the permutation of the specification -/

theorem rotl_eq {n : UInt64} (hpos : 0 < n.toNat) (hlt : n.toNat < 64) (x : UInt64) :
    rotl x n = KangarooTwelve.rotl x n.toNat := by
  rw [← UInt64.toBitVec_inj]
  simp [rotl, KangarooTwelve.rotl, UInt64.toBitVec_shiftRight, UInt64.toBitVec_shiftLeft,
    BitVec.rotateLeft_def, Nat.mod_eq_of_lt hlt]
  congr 2
  omega

theorem theta_eq (st : Lanes) : theta st = KangarooTwelve.theta st := by
  have hrot := rotl_eq (n := 1) (by decide) (by decide)
  refine Vector.ext fun i hi => ?_
  simp only [theta, hrot, KangarooTwelve.theta, KangarooTwelve.ofLanes, Vector.getElem_ofFn]
  interval_cases i <;> rfl

variable {lines : List (Fin 25 × UInt64)}

/-- A lane that no line writes stays. -/
theorem foldl_rhoPiLine_of_notMem {j : Fin 25}
    (hj : j ∉ lines.map Prod.fst) (s : Lanes × UInt64) : (lines.foldl rhoPiLine s).1[j] = s.1[j] := by
  induction lines generalizing s with
  | nil => rfl
  | cons line lines ih =>
    simp only [List.map_cons, List.mem_cons, not_or] at hj
    rw [List.foldl_cons, ih hj.2]
    have hne : line.1.val ≠ j.val := fun h => hj.1 (Fin.ext h.symm)
    simp [rhoPiLine, hne]

/-- When each lane is written once, the lane that the `k`-th line writes is the one that the line
before it replaced, rotated. -/
theorem foldl_rhoPiLine (hnodup : (lines.map Prod.fst).Nodup)
    (s : Lanes × UInt64) {k : ℕ} (hk : k < lines.length) :
    (lines.foldl rhoPiLine s).1[lines[k].1] =
      rotl ((s.2 :: lines.map fun line => s.1[line.1]).getD k 0) lines[k].2 := by
  induction lines generalizing s k with
  | nil => simp at hk
  | cons line lines ih =>
    simp only [List.map_cons, List.nodup_cons] at hnodup
    cases k with
    | zero =>
      have hkeep := foldl_rhoPiLine_of_notMem hnodup.1 (rhoPiLine s line)
      simp only [List.getElem_cons_zero, List.foldl_cons]
      rw [hkeep]
      simp [rhoPiLine]
    | succ k =>
      have hk' : k < lines.length := by simpa using hk
      have hstay : (lines.map fun l => (rhoPiLine s line).1[l.1]) = lines.map fun l => s.1[l.1] := by
        refine List.map_congr_left fun l hl => ?_
        have hne : line.1.val ≠ l.1.val := fun h =>
          hnodup.1 (Fin.ext h ▸ List.mem_map_of_mem hl)
        simp [rhoPiLine, hne]
      have hrest := ih hnodup.2 (rhoPiLine s line) hk'
      rw [hstay] at hrest
      exact hrest

/-- The lane that the steps ρ and π bring to a place. -/
def rhoPiSource (i : Fin 25) : Fin 25 :=
  ⟨(i.val % 5 + 3 * (i.val / 5)) % 5 + 5 * (i.val % 5), by omega⟩

theorem getElem_pi_rho (st : Lanes) (i : Fin 25) :
    (KangarooTwelve.pi (KangarooTwelve.rho st))[i] =
      KangarooTwelve.rotl st[rhoPiSource i] KangarooTwelve.rhoOffsets[rhoPiSource i] := by
  simp [KangarooTwelve.pi, KangarooTwelve.rho, KangarooTwelve.ofLanes, KangarooTwelve.lane,
    rhoPiSource]

/-- The lines of the source move every lane but the first, as ρ and π do. -/
theorem rhoPiLines_spec (k : Fin 24) :
    ((1 : Fin 25) :: rhoPiLines.map Prod.fst)[k.val]? = some (rhoPiSource rhoPiLines[k].1) ∧
      KangarooTwelve.rhoOffsets[rhoPiSource rhoPiLines[k].1] = rhoPiLines[k].2.toNat ∧
      0 < rhoPiLines[k].2.toNat ∧ rhoPiLines[k].2.toNat < 64 := by
  revert k
  decide

theorem exists_rhoPiLine : ∀ i : Fin 25, i ≠ 0 → ∃ k : Fin 24, rhoPiLines[k].1 = i := by decide

theorem rhoPi_eq (st : Lanes) : rhoPi st = KangarooTwelve.pi (KangarooTwelve.rho st) := by
  have hlanes : ∀ i : Fin 25, (rhoPi st)[i] = (KangarooTwelve.pi (KangarooTwelve.rho st))[i] := by
    intro i
    by_cases hzero : i = 0
    · subst hzero
      have hkeep := foldl_rhoPiLine_of_notMem
        (show (0 : Fin 25) ∉ rhoPiLines.map Prod.fst by decide) (st, st[1])
      rw [getElem_pi_rho]
      refine hkeep.trans ?_
      refine UInt64.toBitVec_inj.mp ?_
      simp [rhoPiSource, KangarooTwelve.rotl, KangarooTwelve.rhoOffsets, BitVec.rotateLeft_def,
        BitVec.ushiftRight_eq_zero (le_refl 64)]
    · obtain ⟨k, rfl⟩ := exists_rhoPiLine i hzero
      obtain ⟨hsource, hoffset, hpos, hlt⟩ := rhoPiLines_spec k
      have hwritten := foldl_rhoPiLine (show (rhoPiLines.map Prod.fst).Nodup by decide)
        (st, st[1]) k.isLt
      have hread : (st[1] :: rhoPiLines.map fun line => st[line.1]).getD k 0 =
          st[rhoPiSource rhoPiLines[k].1] := by
        have hmap : (st[1] :: rhoPiLines.map fun line => st[line.1]) =
          ((1 : Fin 25) :: rhoPiLines.map Prod.fst).map fun j => st[j] := by simp
        rw [hmap, List.getD_eq_getElem?_getD, List.getElem?_map, hsource]
        rfl
      rw [getElem_pi_rho, hoffset, ← hread, ← rotl_eq hpos hlt]
      exact hwritten
  exact Vector.ext fun i hi => hlanes ⟨i, hi⟩

theorem chiIota_eq (st : Lanes) (rc : UInt64) :
    chiIota st rc = KangarooTwelve.iota rc (KangarooTwelve.chi st) := by
  refine Vector.ext fun i hi => ?_
  simp only [chiIota, KangarooTwelve.iota, KangarooTwelve.chi, KangarooTwelve.ofLanes,
    Vector.getElem_set, Vector.getElem_ofFn]
  interval_cases i <;> rfl

theorem rndc_eq : ∀ i : Fin 12, rndc[i] = KangarooTwelve.roundConstant (12 + i) := by
  decide +kernel

theorem keccakP12_eq (st : Lanes) : keccakP12 st = KangarooTwelve.keccakP st := by
  have hrange : List.range' 12 12 = (List.finRange 12).map fun i => 12 + i.val := by decide
  have hround : ∀ st i, round st i = KangarooTwelve.round st (12 + i.val) := by
    intro st i
    rw [round, theta_eq, rhoPi_eq, chiIota_eq, rndc_eq, KangarooTwelve.round]
  rw [keccakP12, KangarooTwelve.keccakP, hrange, List.foldl_map]
  exact List.foldl_ext _ _ _ fun st i _ => hround st i

/-! ## The hasher -/

end CK12

/-- The state of the hasher. -/
@[ext] structure CK12 where
  state : Lanes
  buffer : Vector UInt8 168
  buf_pos : ℕ
  /-- The blocks absorbed, first to last. -/
  absorbed : List (List UInt8)
  buf_pos_lt : buf_pos < 168

namespace CK12

/-- `CK12()` and `Reset`. -/
def reset : CK12 where
  state := Vector.replicate 25 0
  buffer := Vector.replicate 168 0
  buf_pos := 0
  absorbed := []
  buf_pos_lt := by decide

/-- The loop that combines the buffer with the lanes of the rate, and the permutation. -/
def permuteWith (state : Lanes) (buffer : Vector UInt8 168) : Lanes :=
  keccakP12 (Vector.ofFn fun i : Fin 25 =>
    if i.val < 168 / 8 then
      state[i] ^^^ UInt64.ofNat (readLE ((buffer.toList.drop (8 * i.val)).take 8))
    else state[i])

/-- The part of `Write` for a full buffer. -/
def absorbFull (h : CK12) (buffer : Vector UInt8 168) : CK12 where
  state := permuteWith h.state buffer
  buffer := Vector.replicate 168 0
  buf_pos := 0
  absorbed := h.absorbed ++ [buffer.toList]
  buf_pos_lt := by decide

/-- An iteration of the loop of `Write`, which copies no more bytes than there is space for. -/
def copy (h : CK12) (data : List UInt8) (hdata : h.buf_pos + data.length ≤ 168) : CK12 :=
  let buffer := BlockStream.overwrite h.buffer h.buf_pos data
  if hfull : h.buf_pos + data.length = 168 then h.absorbFull buffer
  else
    { h with
      buffer := buffer
      buf_pos := h.buf_pos + data.length
      buf_pos_lt := by omega }

/-- `Write`. -/
def write (h : CK12) (data : List UInt8) : CK12 :=
  if data = [] then h
  else
    let take := min data.length (168 - h.buf_pos)
    write (h.copy (data.take take) (by
      have hlt := h.buf_pos_lt
      simp only [List.length_take, take]
      omega)) (data.drop take)
termination_by data.length
decreasing_by
  rename_i hne
  have hpos := List.length_pos_iff.mpr hne
  have hlt := h.buf_pos_lt
  simp only [List.length_drop]
  omega

/-- The padded buffer of `Finalize`. -/
def padBuffer (h : CK12) : Vector UInt8 168 :=
  let buffer := h.buffer.set h.buf_pos 0x07 h.buf_pos_lt
  buffer.set 167 (buffer[167] ||| 0x80)

/-- `Finalize` : the digest. -/
def finalize (h : CK12) : Uint256 :=
  let h := h.write [0x00]
  let state := permuteWith h.state h.padBuffer
  ⟨(List.finRange 4).flatMap fun i => writeLE 8 state[i.val].toNat, by simp⟩

/-- All the blocks of a run that ends with `Finalize`. -/
def absorbedBlocks (h : CK12) : List (List UInt8) :=
  let h := h.write [0x00]
  h.absorbed ++ [h.padBuffer.toList]

/-! ## Runs of the hasher -/

open BlockStream (Cut)

theorem readLE_eq_sum (bytes : List UInt8) :
    readLE bytes = ((List.range bytes.length).map fun k => (bytes.getD k 0).toNat * 256 ^ k).sum := by
  induction bytes with
  | nil => rfl
  | cons b bytes ih =>
    rw [List.length_cons, List.range_succ_eq_map, List.map_cons, List.sum_cons, List.map_map,
      readLE, ih, ← List.sum_map_mul_left]
    simp only [List.getD_cons_zero, pow_zero, mul_one, Nat.add_left_cancel_iff]
    refine congrArg List.sum (List.map_congr_left fun k _ => ?_)
    simp only [Function.comp_apply, List.getD_cons_succ, pow_succ]
    ring

variable {i : ℕ}

theorem readLE_eq_laneOfBytes {bytes : List UInt8} (hi : 8 * i + 8 ≤ bytes.length) :
    UInt64.ofNat (readLE ((bytes.drop (8 * i)).take 8)) = KangarooTwelve.laneOfBytes bytes i := by
  have hlen : ((bytes.drop (8 * i)).take 8).length = 8 := by simp; omega
  rw [readLE_eq_sum, hlen, KangarooTwelve.laneOfBytes]
  refine congrArg (fun l : List ℕ => UInt64.ofNat l.sum) (List.map_congr_left fun k hk => ?_)
  have hlt : k < 8 := List.mem_range.mp hk
  rw [List.getD_eq_getElem _ _ (hlen.symm ▸ hlt), List.getD_eq_getElem _ _ (by omega),
    List.getElem_take, List.getElem_drop]

theorem laneOfBytes_eq_zero {bytes : List UInt8} (hi : bytes.length ≤ 8 * i) :
    KangarooTwelve.laneOfBytes bytes i = 0 := by
  have hzero : ∀ k, bytes.getD (8 * i + k) 0 = 0 := fun k =>
    List.getD_eq_default _ _ (by omega)
  simp only [KangarooTwelve.laneOfBytes, hzero]
  decide

theorem permuteWith_eq (state : Lanes) (buffer : Vector UInt8 168) :
    permuteWith state buffer = KangarooTwelve.absorb state buffer.toList := by
  rw [permuteWith, keccakP12_eq, KangarooTwelve.absorb]
  congr 2
  funext i
  split_ifs with hi
  · rw [readLE_eq_laneOfBytes (by simp; omega)]
  · rw [laneOfBytes_eq_zero (by simp; omega), UInt64.xor_zero]

/-- The state with the blocks `bs` absorbed and `rest` gathered. -/
def gathered (bs : List (List UInt8)) (rest : List UInt8) (hrest : rest.length < 168) : CK12 where
  state := bs.foldl KangarooTwelve.absorb (Vector.replicate 25 0)
  buffer := BlockStream.fill 168 0 rest
  buf_pos := rest.length
  absorbed := bs
  buf_pos_lt := hrest

theorem fill_nil : Vector.replicate 168 0 = BlockStream.fill 168 (0 : UInt8) [] := by
  refine Vector.ext fun i hi => ?_
  simp [BlockStream.fill]

/-- The hasher has read a message : the full blocks are absorbed. -/
def HasRead (h : CK12) (m : List UInt8) : Prop :=
  ∃ bs rest, ∃ hrest : rest.length < 168, Cut 168 m bs rest ∧ h = gathered bs rest hrest

theorem hasRead_reset : reset.HasRead [] := by
  refine ⟨[], [], Nat.zero_lt_succ 167, Cut.nil, ?_⟩
  exact CK12.ext rfl fill_nil rfl rfl

variable {rest : List UInt8}

theorem length_nil_lt : ([] : List UInt8).length < 168 := by decide

theorem absorbFull_gathered (bs : List (List UInt8)) {block : List UInt8}
    (hrest : rest.length < 168) (hblock : block.length = 168) :
    (gathered bs rest hrest).absorbFull (BlockStream.fill 168 0 block) =
      gathered (bs ++ [block]) [] length_nil_lt := by
  have hbytes : (BlockStream.fill 168 (0 : UInt8) block).toList = block := by
    rw [BlockStream.toList_fill hblock.le]
    simp [hblock]
  refine CK12.ext ?_ fill_nil rfl ?_
  · simp only [absorbFull, permuteWith_eq, hbytes, gathered, List.foldl_append, List.foldl_cons,
      List.foldl_nil]
  · simp only [absorbFull, hbytes, gathered]

variable {h : CK12} {m : List UInt8}

/-- One iteration of the loop of `Write`. -/
theorem HasRead.copy {data : List UInt8} (hread : h.HasRead m)
    (hdata : h.buf_pos + data.length ≤ 168) : (h.copy data hdata).HasRead (m ++ data) := by
  obtain ⟨bs, rest, hrest, hcut, rfl⟩ := hread
  have hbuffer : BlockStream.overwrite (gathered bs rest hrest).buffer
      (gathered bs rest hrest).buf_pos data = BlockStream.fill 168 0 (rest ++ data) :=
    BlockStream.overwrite_fill 0 rest data
  have hcut' : Cut 168 (m ++ data) bs (rest ++ data) := hcut.append _ hdata
  unfold CK12.copy
  rw [hbuffer]
  split_ifs with hfull
  · have hlen : (rest ++ data).length = 168 := List.length_append.trans hfull
    exact ⟨bs ++ [rest ++ data], [], by simp, hcut'.push hlen, absorbFull_gathered bs hrest hlen⟩
  · have hlt : (rest ++ data).length < 168 :=
      lt_of_le_of_ne hcut'.rest_le fun h => hfull (List.length_append.symm.trans h)
    refine ⟨bs, rest ++ data, hlt, hcut', ?_⟩
    exact CK12.ext rfl rfl List.length_append.symm rfl

theorem HasRead.write (hread : h.HasRead m) (data : List UInt8) :
    (h.write data).HasRead (m ++ data) := by
  fun_induction CK12.write h data generalizing m with
  | case1 h => simpa using hread
  | case2 h data hne take =>
    rename_i ih
    have hrest := ih (hread.copy _)
    rwa [List.append_assoc, List.take_append_drop] at hrest

/-- The padding of `Finalize` is that of a message of one chunk. -/
theorem padBuffer_gathered (bs : List (List UInt8)) (hrest : rest.length < 168) :
    (gathered bs rest hrest).padBuffer.toList = KangarooTwelve.padLast rest 0x07 := by
  have hset : (BlockStream.fill 168 (0 : UInt8) rest).set rest.length 0x07 hrest =
      BlockStream.fill 168 0 (rest ++ [0x07]) := by
    rw [← BlockStream.overwrite_fill]
    refine Vector.ext fun i hi => ?_
    simp only [BlockStream.overwrite, Vector.getElem_set, Vector.getElem_ofFn, Fin.getElem_fin]
    split_ifs with heq hle hle
    · rw [heq, Nat.sub_self, List.getD_cons_zero]
    · omega
    · rw [List.getD_eq_default _ _ (by simp; omega)]
    · rfl
  have hlast : (rest ++ [(0x07 : UInt8)]).getD 167 0 ||| 0x80 =
      (rest ++ [(0x07 : UInt8)]).getD 167 0 ^^^ 0x80 := by
    by_cases hfull : rest.length = 167
    · rw [List.getD_append_right _ _ _ _ hfull.le, hfull]
      decide
    · rw [List.getD_eq_default _ _ (by simp; omega)]
      decide
  have hlen : (rest ++ [(0x07 : UInt8)]).length ≤ 168 := by simpa using hrest
  have hbytes := BlockStream.toList_fill (z := (0 : UInt8)) hlen
  rw [List.length_append, List.length_singleton, Nat.add_comm, ← Nat.sub_sub] at hbytes
  simp only [padBuffer, gathered, hset]
  rw [Vector.toList_set, hbytes, KangarooTwelve.padLast]
  refine List.ext_getElem (by simp) fun i hi hi' => ?_
  rw [List.getElem_set, List.getElem_modify]
  split_ifs with heq
  · subst heq
    rw [List.getElem_of_eq hbytes.symm, Vector.getElem_toList]
    simpa only [BlockStream.fill, Vector.getElem_ofFn] using hlast
  · rfl

/-- `Finalize` hashes the message and the suffix of the empty customization string as the only
node. -/
theorem HasRead.absorbedBlocks_eq (hread : h.HasRead m) :
    h.absorbedBlocks = KangarooTwelve.spongeBlocks (m ++ [0x00]) 0x07 := by
  obtain ⟨bs, rest, hrest, hcut, hwrite⟩ := hread.write [0x00]
  rw [KangarooTwelve.spongeBlocks_eq hcut hrest, absorbedBlocks, hwrite, padBuffer_gathered]
  rfl

theorem writeLE_eq_map (k x : ℕ) :
    writeLE k x = (List.range k).map fun j => UInt8.ofNat (x / 256 ^ j) := by
  induction k generalizing x with
  | zero => rfl
  | succ k ih =>
    rw [writeLE, ih, List.range_succ_eq_map, List.map_cons, List.map_map, pow_zero, Nat.div_one]
    simp only [Function.comp_def, Nat.div_div_eq_div_mul, Nat.succ_eq_add_one, pow_succ']

theorem take_lanes (a : Lanes) : a.toList.take 4 = (List.finRange 4).map fun i => a[i.val] := by
  refine List.ext_getElem (by simp) fun i hi hi' => ?_
  simp

theorem HasRead.finalize_eq (hread : h.HasRead m) :
    h.finalize.data = KangarooTwelve.turboShake128 (m ++ [0x00]) 0x07 := by
  obtain ⟨bs, rest, hrest, hcut, hwrite⟩ := hread.write [0x00]
  rw [KangarooTwelve.turboShake128, KangarooTwelve.spongeBlocks_eq hcut hrest, List.foldl_append,
    List.foldl_cons, List.foldl_nil, ← padBuffer_gathered bs hrest, ← permuteWith_eq]
  simp only [finalize, hwrite, KangarooTwelve.squeeze, take_lanes, List.flatMap_map]
  refine List.flatMap_congr fun i _ => ?_
  rw [writeLE_eq_map, KangarooTwelve.bytesOfLane]
  rfl

theorem HasRead.foldl_write (hread : h.HasRead m) (pieces : List (List UInt8)) :
    (pieces.foldl CK12.write h).HasRead (m ++ pieces.flatten) := by
  induction pieces generalizing h m with
  | nil => simpa using hread
  | cons data pieces ih => simpa using ih (hread.write data)

/-- The digest is that of the sponge, however a message is split into calls of `Write`. -/
theorem k12_split_independent (pieces : List (List UInt8)) :
    (pieces.foldl write reset).finalize.data =
      KangarooTwelve.turboShake128 (pieces.flatten ++ [0x00]) 0x07 := by
  simpa using (hasRead_reset.foldl_write pieces).finalize_eq

end CK12

end RadiantCore

/-!
# The sponge on numbers

The permutation of `CK12` with its lanes as natural numbers below `2 ^ 64`, so that a digest of a
message of many blocks can be computed inside a proof. The operations on numbers are those that
the kernel computes with, and the lanes are brought to numerals after each round
(`withNumerals`). `turboShake128_eq` is the connection with the specification.
-/

namespace RadiantCore

open List

open KangarooTwelve (Lanes)

namespace CK12

/-! ## The permutation -/

/-- The lanes of a state as numbers. -/
def toNats (st : Lanes) : List ℕ := st.toList.map UInt64.toNat

/-- `Rotl`. -/
def rotlNat (x n : ℕ) : ℕ :=
  Nat.lor (Nat.mod (Nat.shiftLeft x n) 18446744073709551616) (Nat.shiftRight x (Nat.sub 64 n))

/-- The part `Theta` of a round. -/
def thetaNat : List ℕ → List ℕ
  | [a0, a1, a2, a3, a4, a5, a6, a7, a8, a9, a10, a11, a12, a13, a14, a15, a16, a17, a18, a19,
    a20, a21, a22, a23, a24] =>
    let c0 := Nat.xor (Nat.xor (Nat.xor (Nat.xor a0 a5) a10) a15) a20
    let c1 := Nat.xor (Nat.xor (Nat.xor (Nat.xor a1 a6) a11) a16) a21
    let c2 := Nat.xor (Nat.xor (Nat.xor (Nat.xor a2 a7) a12) a17) a22
    let c3 := Nat.xor (Nat.xor (Nat.xor (Nat.xor a3 a8) a13) a18) a23
    let c4 := Nat.xor (Nat.xor (Nat.xor (Nat.xor a4 a9) a14) a19) a24
    let d0 := Nat.xor c4 (rotlNat c1 1)
    let d1 := Nat.xor c0 (rotlNat c2 1)
    let d2 := Nat.xor c1 (rotlNat c3 1)
    let d3 := Nat.xor c2 (rotlNat c4 1)
    let d4 := Nat.xor c3 (rotlNat c0 1)
    [Nat.xor a0 d0, Nat.xor a1 d1, Nat.xor a2 d2, Nat.xor a3 d3, Nat.xor a4 d4, Nat.xor a5 d0,
      Nat.xor a6 d1, Nat.xor a7 d2, Nat.xor a8 d3, Nat.xor a9 d4, Nat.xor a10 d0, Nat.xor a11 d1,
      Nat.xor a12 d2, Nat.xor a13 d3, Nat.xor a14 d4, Nat.xor a15 d0, Nat.xor a16 d1,
      Nat.xor a17 d2, Nat.xor a18 d3, Nat.xor a19 d4, Nat.xor a20 d0, Nat.xor a21 d1,
      Nat.xor a22 d2, Nat.xor a23 d3, Nat.xor a24 d4]
  | l => l

/-- The part `Rho Pi` of a round. -/
def rhoPiNat : List ℕ → List ℕ
  | [a0, a1, a2, a3, a4, a5, a6, a7, a8, a9, a10, a11, a12, a13, a14, a15, a16, a17, a18, a19,
    a20, a21, a22, a23, a24] =>
    [rotlNat a0 0, rotlNat a6 44, rotlNat a12 43, rotlNat a18 21, rotlNat a24 14, rotlNat a3 28,
      rotlNat a9 20, rotlNat a10 3, rotlNat a16 45, rotlNat a22 61, rotlNat a1 1, rotlNat a7 6,
      rotlNat a13 25, rotlNat a19 8, rotlNat a20 18, rotlNat a4 27, rotlNat a5 36,
      rotlNat a11 10, rotlNat a17 15, rotlNat a23 56, rotlNat a2 62, rotlNat a8 55,
      rotlNat a14 39, rotlNat a15 41, rotlNat a21 2]
  | l => l

/-- A lane of the part `Chi Iota`. -/
def chiNat (x y z : ℕ) : ℕ := Nat.xor x (Nat.land (Nat.xor 18446744073709551615 y) z)

/-- The part `Chi Iota` of a round. -/
def chiIotaNat (rc : ℕ) : List ℕ → List ℕ
  | [a0, a1, a2, a3, a4, a5, a6, a7, a8, a9, a10, a11, a12, a13, a14, a15, a16, a17, a18, a19,
    a20, a21, a22, a23, a24] =>
    [Nat.xor (chiNat a0 a1 a2) rc, chiNat a1 a2 a3, chiNat a2 a3 a4, chiNat a3 a4 a0,
      chiNat a4 a0 a1, chiNat a5 a6 a7, chiNat a6 a7 a8, chiNat a7 a8 a9, chiNat a8 a9 a5,
      chiNat a9 a5 a6, chiNat a10 a11 a12, chiNat a11 a12 a13, chiNat a12 a13 a14,
      chiNat a13 a14 a10, chiNat a14 a10 a11, chiNat a15 a16 a17, chiNat a16 a17 a18,
      chiNat a17 a18 a19, chiNat a18 a19 a15, chiNat a19 a15 a16, chiNat a20 a21 a22,
      chiNat a21 a22 a23, chiNat a22 a23 a24, chiNat a23 a24 a20, chiNat a24 a20 a21]
  | l => l

theorem toNat_rotl (x : UInt64) {n : ℕ} (hn : n < 64) :
    (KangarooTwelve.rotl x n).toNat = rotlNat x.toNat n := by
  have hx := x.toNat_lt
  show (x.toBitVec.rotateLeft n).toNat = _
  rw [BitVec.rotateLeft_def, BitVec.toNat_or, BitVec.toNat_shiftLeft, BitVec.toNat_ushiftRight,
    Nat.mod_eq_of_lt hn]
  rfl

theorem toNat_chi (x y z : UInt64) :
    (x ^^^ (~~~y &&& z)).toNat = chiNat x.toNat y.toNat z.toNat := by
  have hnot : (~~~y).toNat = Nat.xor 18446744073709551615 y.toNat := by
    show (~~~y.toBitVec).toNat = _
    rw [← BitVec.allOnes_xor, BitVec.toNat_xor, BitVec.toNat_allOnes]
    rfl
  rw [UInt64.toNat_xor, UInt64.toNat_and, hnot]
  rfl

/-! ### Each part of a round, lane by lane -/

section Lanes

/-- The lane at the coordinates `x` and `y`. -/
def laneNat (f : Fin 25 → ℕ) (x y : ℕ) : ℕ := f ⟨x % 5 + 5 * (y % 5), by omega⟩

/-- The parity of a column. -/
def parityNat (f : Fin 25 → ℕ) (x : ℕ) : ℕ :=
  laneNat f x 0 ^^^ laneNat f x 1 ^^^ laneNat f x 2 ^^^ laneNat f x 3 ^^^ laneNat f x 4

variable (f : Fin 25 → ℕ)

theorem thetaNat_ofFn : thetaNat (ofFn f) = ofFn fun i : Fin 25 =>
    laneNat f (i % 5) (i / 5) ^^^
      (parityNat f (i % 5 + 4) ^^^ rotlNat (parityNat f (i % 5 + 1)) 1) := rfl

theorem rhoPiNat_ofFn : rhoPiNat (ofFn f) = ofFn fun i : Fin 25 =>
    rotlNat (f (rhoPiSource i)) KangarooTwelve.rhoOffsets[rhoPiSource i] := rfl

theorem chiIotaNat_ofFn (rc : ℕ) : chiIotaNat rc (ofFn f) = ofFn fun i : Fin 25 =>
    let x := chiNat (laneNat f (i % 5) (i / 5)) (laneNat f (i % 5 + 1) (i / 5))
      (laneNat f (i % 5 + 2) (i / 5))
    if 0 = i.val then x ^^^ rc else x := rfl

end Lanes

section

variable (st : Lanes)

theorem toNats_eq : toNats st = List.ofFn fun i : Fin 25 => st[i].toNat := by
  refine ext_getElem (by simp [toNats]) fun i hi hi' => ?_
  simp only [toNats, List.getElem_map, Vector.getElem_toList, List.getElem_ofFn, Fin.getElem_fin]

theorem toNat_lane (x y : ℕ) :
    (KangarooTwelve.lane st x y).toNat = laneNat (fun i => st[i].toNat) x y := rfl

theorem toNats_theta : toNats (theta st) = thetaNat (toNats st) := by
  have hparity : ∀ x, (KangarooTwelve.parity st x).toNat =
      parityNat (fun i => st[i].toNat) x := fun x => by
    simp only [KangarooTwelve.parity, UInt64.toNat_xor, toNat_lane]
    rfl
  rw [toNats_eq, toNats_eq, thetaNat_ofFn, theta_eq]
  refine congrArg ofFn (funext fun i => ?_)
  simp only [KangarooTwelve.theta, KangarooTwelve.ofLanes, Fin.getElem_fin, Vector.getElem_ofFn,
    UInt64.toNat_xor, toNat_rotl _ (show 1 < 64 by decide), hparity, toNat_lane]

theorem toNats_rhoPi : toNats (rhoPi st) = rhoPiNat (toNats st) := by
  have hoffset : ∀ i : Fin 25, KangarooTwelve.rhoOffsets[i] < 64 := by decide
  rw [toNats_eq, toNats_eq, rhoPiNat_ofFn, rhoPi_eq]
  refine congrArg ofFn (funext fun i => ?_)
  rw [getElem_pi_rho, toNat_rotl _ (hoffset _)]

theorem toNats_chiIota (rc : UInt64) :
    toNats (chiIota st rc) = chiIotaNat rc.toNat (toNats st) := by
  rw [toNats_eq, toNats_eq, chiIotaNat_ofFn, chiIota_eq]
  refine congrArg ofFn (funext fun i => ?_)
  have hchi : ∀ i : Fin 25, ((KangarooTwelve.chi st)[i]).toNat =
      chiNat (laneNat (fun i => st[i].toNat) (i % 5) (i / 5))
        (laneNat (fun i => st[i].toNat) (i % 5 + 1) (i / 5))
        (laneNat (fun i => st[i].toNat) (i % 5 + 2) (i / 5)) := fun i => by
    simp only [KangarooTwelve.chi, KangarooTwelve.ofLanes, Fin.getElem_fin, Vector.getElem_ofFn,
      toNat_chi, toNat_lane]
  simp only [KangarooTwelve.iota, Fin.getElem_fin, Vector.getElem_set]
  split_ifs with hzero
  · obtain rfl : i = 0 := Fin.ext hzero.symm
    rw [UInt64.toNat_xor]
    exact congrArg (· ^^^ rc.toNat) (hchi 0)
  · exact hchi i

end

/-! ### Rounds -/

/-- Continue with a number after it is brought to a numeral. -/
def withNumeral {α : Type} (x : ℕ) (k : ℕ → α) : α :=
  match x with
  | 0 => k 0
  | n + 1 => k (n + 1)

/-- Continue with a list of numbers after each is brought to a numeral. -/
def withNumerals {α : Type} : List ℕ → (List ℕ → α) → α
  | [], k => k []
  | x :: xs, k => withNumeral x fun x => withNumerals xs fun xs => k (x :: xs)

theorem withNumeral_eq {α : Type} (x : ℕ) (k : ℕ → α) : withNumeral x k = k x := by
  cases x <;> rfl

theorem withNumerals_eq {α : Type} (xs : List ℕ) (k : List ℕ → α) : withNumerals xs k = k xs := by
  induction xs generalizing k with
  | nil => rfl
  | cons x xs ih => rw [withNumerals, withNumeral_eq, ih]

/-- Rounds with given constants. -/
def roundsNat : List ℕ → List ℕ → List ℕ
  | [], l => l
  | rc :: rcs, l => withNumerals (chiIotaNat rc (rhoPiNat (thetaNat l))) (roundsNat rcs)

/-- `KeccakP12`. -/
def keccakP12Nat (l : List ℕ) : List ℕ := roundsNat (rndc.toList.map UInt64.toNat) l

theorem toNats_keccakP12 (st : Lanes) : toNats (keccakP12 st) = keccakP12Nat (toNats st) := by
  have hrounds : ∀ (rounds : List (Fin 12)) (st : Lanes), toNats (rounds.foldl round st) =
      roundsNat (rounds.map fun i => rndc[i].toNat) (toNats st) := by
    intro rounds
    induction rounds with
    | nil => exact fun _ => rfl
    | cons i rounds ih =>
      intro st
      rw [foldl_cons, ih, map_cons, roundsNat, withNumerals_eq, round, toNats_chiIota,
        toNats_rhoPi, toNats_theta]
  have hconstants : rndc.toList.map UInt64.toNat =
      (finRange 12).map fun i => rndc[i].toNat := by decide
  rw [keccakP12, hrounds, keccakP12Nat, hconstants]

/-! ## The sponge -/

/-- The lanes of a block as numbers. -/
def blockNats (block : List UInt8) : List ℕ :=
  ofFn fun i : Fin 25 => (KangarooTwelve.laneOfBytes block i).toNat

/-- A block is absorbed. -/
def absorbNat (l : List ℕ) (block : List UInt8) : List ℕ :=
  keccakP12Nat (zipWith Nat.xor l (blockNats block))

/-- The first 32 bytes of a state. -/
def squeezeNat (l : List ℕ) : List UInt8 :=
  (l.take 4).flatMap fun x => (range 8).map fun k => UInt8.ofNat (x / 256 ^ k)

theorem toNats_absorb (st : Lanes) (block : List UInt8) :
    toNats (KangarooTwelve.absorb st block) = absorbNat (toNats st) block := by
  rw [KangarooTwelve.absorb, ← keccakP12_eq, toNats_keccakP12, absorbNat]
  refine congrArg keccakP12Nat ?_
  rw [toNats_eq, toNats_eq, blockNats]
  refine ext_getElem (by simp) fun i hi hi' => ?_
  simp only [List.getElem_ofFn, List.getElem_zipWith, Fin.getElem_fin, Vector.getElem_ofFn,
    UInt64.toNat_xor]
  rfl

theorem toNats_foldl_absorb (blocks : List (List UInt8)) (st : Lanes) :
    toNats (blocks.foldl KangarooTwelve.absorb st) = blocks.foldl absorbNat (toNats st) :=
  (foldl_hom toNats fun st block => (toNats_absorb st block).symm).symm

theorem turboShake128_eq (m : List UInt8) (domain : UInt8) :
    KangarooTwelve.turboShake128 m domain = squeezeNat
      ((KangarooTwelve.spongeBlocks m domain).foldl absorbNat (replicate 25 0)) := by
  have hzero : toNats (Vector.replicate 25 0) = replicate 25 0 := by decide
  rw [← hzero, ← toNats_foldl_absorb, KangarooTwelve.turboShake128, KangarooTwelve.squeeze,
    squeezeNat, toNats, ← map_take, flatMap_map]
  rfl

end CK12

end RadiantCore
