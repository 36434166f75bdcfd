import RadiantCore.Blob
import RadiantCore.BlockStream

/-!
# The BLAKE3 hash of a single chunk

The unkeyed hash of a message of at most 1024 bytes as the specification of BLAKE3 defines it :
the message is cut into blocks of 64 bytes, the last of them filled up with zeros, and the
blocks are compressed one after the other, each into the chaining value of the one before. What a
compression takes besides the chaining value is a `Compression` : the block, how many bytes of
the message it holds, the counter, which is the number of the chunk, and the flags. The rounds
of a compression differ by a permutation of the words of the block.
-/

namespace Blake3

/-- A chaining value. -/
abbrev ChainingValue := Vector UInt32 8
/-- The words of a block, or of the state of a compression. -/
abbrev Words := Vector UInt32 16

/-- The initial chaining value. -/
def iv : ChainingValue :=
  #v[0x6A09E667, 0xBB67AE85, 0x3C6EF372, 0xA54FF53A, 0x510E527F, 0x9B05688C, 0x1F83D9AB, 0x5BE0CD19]

/-- The flag of the first block of a chunk. -/
def chunkStart : UInt8 := 1
/-- The flag of the last block of a chunk. -/
def chunkEnd : UInt8 := 2
/-- The flag of the last compression of a hash. -/
def root : UInt8 := 8

/-- The inputs of a compression besides the chaining value. -/
structure Compression where
  block : Vector UInt8 64
  blockLen : UInt8
  counter : UInt64
  flags : UInt8
deriving DecidableEq

/-! ## Compression -/

/-- Rotation of a word to the right. -/
def rotr (x : UInt32) (n : ℕ) : UInt32 := ⟨x.toBitVec.rotateRight n⟩

/-- The quarter round, on four words of the state and two of the block. -/
def quarterRound (a b c d m₀ m₁ : UInt32) : UInt32 × UInt32 × UInt32 × UInt32 :=
  let a := a + b + m₀
  let d := rotr (d ^^^ a) 16
  let c := c + d
  let b := rotr (b ^^^ c) 12
  let a := a + b + m₁
  let d := rotr (d ^^^ a) 8
  let c := c + d
  let b := rotr (b ^^^ c) 7
  (a, b, c, d)

/-- The first half of a round : a quarter round on each column of the state, taken as a square. -/
def columnStep (v m : Words) : Words :=
  let (v0, v4, v8, v12) := quarterRound v[0] v[4] v[8] v[12] m[0] m[1]
  let (v1, v5, v9, v13) := quarterRound v[1] v[5] v[9] v[13] m[2] m[3]
  let (v2, v6, v10, v14) := quarterRound v[2] v[6] v[10] v[14] m[4] m[5]
  let (v3, v7, v11, v15) := quarterRound v[3] v[7] v[11] v[15] m[6] m[7]
  #v[v0, v1, v2, v3, v4, v5, v6, v7, v8, v9, v10, v11, v12, v13, v14, v15]

/-- The second half of a round : a quarter round on each diagonal. -/
def diagonalStep (v m : Words) : Words :=
  let (v0, v5, v10, v15) := quarterRound v[0] v[5] v[10] v[15] m[8] m[9]
  let (v1, v6, v11, v12) := quarterRound v[1] v[6] v[11] v[12] m[10] m[11]
  let (v2, v7, v8, v13) := quarterRound v[2] v[7] v[8] v[13] m[12] m[13]
  let (v3, v4, v9, v14) := quarterRound v[3] v[4] v[9] v[14] m[14] m[15]
  #v[v0, v1, v2, v3, v4, v5, v6, v7, v8, v9, v10, v11, v12, v13, v14, v15]

/-- The permutation of the words of the block from one round to the next. -/
def permutation : Vector (Fin 16) 16 := #v[2, 6, 3, 10, 7, 0, 4, 13, 1, 11, 12, 5, 9, 14, 15, 8]

/-- The words of the block in the order of the next round. -/
def permute (m : Words) : Words := Vector.ofFn fun i : Fin 16 => m[permutation[i]]

/-- A number of rounds, which take the words of the block in turn permuted. -/
def rounds : ℕ → Words → Words → Words
  | 0, v, _ => v
  | n + 1, v, m => rounds n (diagonalStep (columnStep v m) m) (permute m)

/-- The words of a block, in little-endian order. -/
def blockWords (block : Vector UInt8 64) : Words :=
  Vector.ofFn fun i : Fin 16 =>
    UInt32.ofNat (block[4 * i.val].toNat + 2 ^ 8 * block[4 * i.val + 1].toNat +
      2 ^ 16 * block[4 * i.val + 2].toNat + 2 ^ 24 * block[4 * i.val + 3].toNat)

/-- The state a compression starts from. -/
def initialState (cv : ChainingValue) (c : Compression) : Words :=
  #v[cv[0], cv[1], cv[2], cv[3], cv[4], cv[5], cv[6], cv[7], iv[0], iv[1], iv[2], iv[3],
    c.counter.toUInt32, (c.counter >>> 32).toUInt32, c.blockLen.toUInt32, c.flags.toUInt32]

/-- The chaining value after a compression : seven rounds, and the two halves of the state
combined. -/
def compress (cv : ChainingValue) (c : Compression) : ChainingValue :=
  let v := rounds 7 (initialState cv c) (blockWords c.block)
  Vector.ofFn fun i : Fin 8 => v[i.val] ^^^ v[i.val + 8]

/-! ## The hash -/

/-- A block of at most 64 bytes filled up with zeros. -/
def padBlock (bytes : List UInt8) : Vector UInt8 64 := BlockStream.fill 64 0 bytes

/-- The compression of a block, the `i`-th of the `n` blocks of the only chunk : the counter is
zero, the first block has `chunkStart`, the last one `chunkEnd` and `root`, and each its length. -/
def blockCompression (n : ℕ) (b : List UInt8) (i : ℕ) : Compression where
  block := padBlock b
  blockLen := UInt8.ofNat b.length
  counter := 0
  flags := (if i = 0 then chunkStart else 0) ||| (if i + 1 = n then chunkEnd ||| root else 0)

/-- The compressions of a message. -/
def compressions (m : List UInt8) : List Compression :=
  let blocks := BlockStream.blocks 64 m
  blocks.zipIdx.map fun (b, i) => blockCompression blocks.length b i

/-- The bytes of a chaining value, each word in little-endian order. -/
def wordBytes (cv : ChainingValue) : List UInt8 :=
  cv.toList.flatMap fun w : UInt32 =>
    [w.toUInt8, (w >>> 8).toUInt8, (w >>> 16).toUInt8, (w >>> 24).toUInt8]

/-- The BLAKE3 hash of a message of at most 1024 bytes. -/
def hash (m : List UInt8) : List UInt8 := wordBytes ((compressions m).foldl compress iv)

end Blake3

/-!
# The implementation of BLAKE3

`CBlake3` of `crypto/blake3.cpp`, the hasher of `OP_BLAKE3`. `Write` gathers the message in a
block and compresses a full block only when more bytes follow, so that the last block is left to
`Finalize`. The state also records the compressions made so far, which the source does not : it is
what a run is compared with.
-/

namespace RadiantCore

open Blake3 (ChainingValue Words Compression)

namespace CBlake3

/-- `BLOCK_LEN`. -/
def blockLenMax : ℕ := 64
/-- `CHUNK_LEN`. -/
def chunkLen : ℕ := 1024

/-- `MSG_SCHEDULE` : the order of the words of the block in each round. -/
def msgSchedule : Vector (Vector (Fin 16) 16) 7 :=
  #v[#v[0, 1, 2, 3, 4, 5, 6, 7, 8, 9, 10, 11, 12, 13, 14, 15],
    #v[2, 6, 3, 10, 7, 0, 4, 13, 1, 11, 12, 5, 9, 14, 15, 8],
    #v[3, 4, 10, 12, 13, 2, 7, 14, 6, 5, 9, 0, 11, 15, 8, 1],
    #v[10, 7, 12, 9, 14, 3, 13, 15, 4, 0, 11, 2, 5, 8, 1, 6],
    #v[12, 13, 9, 11, 15, 10, 14, 8, 7, 2, 5, 3, 0, 1, 6, 4],
    #v[9, 14, 11, 5, 8, 12, 15, 1, 13, 3, 0, 10, 2, 6, 4, 7],
    #v[11, 15, 5, 0, 1, 9, 8, 6, 14, 10, 2, 12, 3, 4, 7, 13]]

/-- `RotR`. -/
def rotR (x : UInt32) (n : UInt32) : UInt32 := (x >>> n) ||| (x <<< (32 - n))

/-- `G`, on the state in place. -/
def g (state : Words) (a b c d : Fin 16) (mx my : UInt32) : Words :=
  let state := state.set a (state[a] + state[b] + mx)
  let state := state.set d (rotR (state[d] ^^^ state[a]) 16)
  let state := state.set c (state[c] + state[d])
  let state := state.set b (rotR (state[b] ^^^ state[c]) 12)
  let state := state.set a (state[a] + state[b] + my)
  let state := state.set d (rotR (state[d] ^^^ state[a]) 8)
  let state := state.set c (state[c] + state[d])
  state.set b (rotR (state[b] ^^^ state[c]) 7)

/-- `Round`. -/
def round (state msg : Words) : Words :=
  -- Column step
  let state := g state 0 4 8 12 msg[0] msg[1]
  let state := g state 1 5 9 13 msg[2] msg[3]
  let state := g state 2 6 10 14 msg[4] msg[5]
  let state := g state 3 7 11 15 msg[6] msg[7]
  -- Diagonal step
  let state := g state 0 5 10 15 msg[8] msg[9]
  let state := g state 1 6 11 12 msg[10] msg[11]
  let state := g state 2 7 8 13 msg[12] msg[13]
  g state 3 4 9 14 msg[14] msg[15]

/-- The words of the block in the order of a round. -/
def scheduled (msg : Words) (r : Fin 7) : Words :=
  Vector.ofFn fun i : Fin 16 => msg[msgSchedule[r][i]]

/-- The words of a block that `Compress` parses. -/
def parseBlock (block : Vector UInt8 64) : Words :=
  Vector.ofFn fun i : Fin 16 =>
    block[4 * i.val].toUInt32 ||| (block[4 * i.val + 1].toUInt32 <<< 8) |||
      (block[4 * i.val + 2].toUInt32 <<< 16) ||| (block[4 * i.val + 3].toUInt32 <<< 24)

/-- `Compress`. -/
def compress (cv : ChainingValue) (block : Vector UInt8 64) (block_len : UInt8) (counter : UInt64)
    (flags : UInt8) : Words :=
  let msg := parseBlock block
  let state : Words := #v[cv[0], cv[1], cv[2], cv[3], cv[4], cv[5], cv[6], cv[7],
    Blake3.iv[0], Blake3.iv[1], Blake3.iv[2], Blake3.iv[3],
    counter.toUInt32, (counter >>> 32).toUInt32, block_len.toUInt32, flags.toUInt32]
  let state := (List.finRange 7).foldl
    (fun state r => round state (scheduled msg r)) state
  Vector.ofFn fun i : Fin 16 =>
    if h : i.val < 8 then state[i.val] ^^^ state[i.val + 8] else state[i] ^^^ cv[i.val - 8]

end CBlake3

/-- The state of the hasher. -/
@[ext] structure CBlake3 where
  cv : ChainingValue
  block : Vector UInt8 64
  block_len : ℕ
  counter : UInt64
  flags : UInt8
  bytes_consumed : ℕ
  /-- The compressions made, first to last. -/
  compressed : List Compression
  block_len_le : block_len ≤ 64

namespace CBlake3

/-- `CBlake3()` and `Reset`. -/
def reset : CBlake3 where
  cv := Blake3.iv
  block := Vector.replicate 64 0
  block_len := 0
  counter := 0
  flags := Blake3.chunkStart
  bytes_consumed := 0
  compressed := []
  block_len_le := by decide

/-- The part of `Write` for a full block : it is compressed and a new one started. -/
def compressFull (h : CBlake3) : CBlake3 where
  cv := Vector.ofFn fun i : Fin 8 => (compress h.cv h.block 64 h.counter h.flags)[i.val]
  block := Vector.replicate 64 0
  block_len := 0
  counter := h.counter + 1
  -- After the first block, clear CHUNK_START flag
  flags := h.flags &&& ~~~Blake3.chunkStart
  bytes_consumed := h.bytes_consumed
  compressed := h.compressed ++ [⟨h.block, 64, h.counter, h.flags⟩]
  block_len_le := by decide

/-- The part of `Write` that copies bytes, no more than there is space for, into the block. -/
def copy (h : CBlake3) (data : List UInt8) (hdata : h.block_len + data.length ≤ 64) : CBlake3 where
  cv := h.cv
  block := BlockStream.overwrite h.block h.block_len data
  block_len := h.block_len + data.length
  counter := h.counter
  flags := h.flags
  bytes_consumed := h.bytes_consumed + data.length
  compressed := h.compressed
  block_len_le := hdata

/-- The beginning of an iteration of the loop of `Write`. -/
def makeSpace (h : CBlake3) : CBlake3 := if h.block_len = 64 then h.compressFull else h

theorem makeSpace_block_len_lt (h : CBlake3) : h.makeSpace.block_len < 64 := by
  unfold makeSpace
  split
  · exact Nat.zero_lt_succ 63
  · have hle := h.block_len_le
    omega

/-- `Write`. -/
def write (h : CBlake3) (data : List UInt8) : CBlake3 :=
  if data = [] then h
  else
    let h' := h.makeSpace
    let take := min data.length (64 - h'.block_len)
    write (h'.copy (data.take take) (by
      have hlt := h.makeSpace_block_len_lt
      simp only [List.length_take, take, h']
      omega)) (data.drop take)
termination_by data.length
decreasing_by
  rename_i hne
  have hpos := List.length_pos_iff.mpr hne
  have hlt := h.makeSpace_block_len_lt
  simp only [List.length_drop]
  omega

/-- The last compression, of `Finalize`. -/
def finalCompression (h : CBlake3) : Compression :=
  ⟨h.block, UInt8.ofNat h.block_len, h.counter, h.flags ||| Blake3.chunkEnd ||| Blake3.root⟩

/-- `Finalize` : it fails when the message was longer than a chunk. -/
def finalize (h : CBlake3) : Option Uint256 :=
  if h.bytes_consumed > chunkLen then none
  else
    let c := h.finalCompression
    let out := compress h.cv c.block c.blockLen c.counter c.flags
    some ⟨(List.finRange 8).flatMap fun i =>
      let w : UInt32 := out[i.val]
      [w.toUInt8, (w >>> 8).toUInt8, (w >>> 16).toUInt8, (w >>> 24).toUInt8], by simp⟩

/-- All the compressions of a run that ends with `Finalize`. -/
def compressions (h : CBlake3) : List Compression := h.compressed ++ [h.finalCompression]

/-! ## The compression function -/

theorem rotR_eq {n : UInt32} (hpos : 0 < n.toNat) (hlt : n.toNat < 32) (x : UInt32) :
    rotR x n = Blake3.rotr x n.toNat := by
  rw [← UInt32.toBitVec_inj]
  simp [rotR, Blake3.rotr, UInt32.toBitVec_shiftRight, UInt32.toBitVec_shiftLeft, BitVec.rotateRight_def, Nat.mod_eq_of_lt hlt]
  congr 2
  omega

theorem words_ext {v w : Words} (h : ∀ i : Fin 16, v[i] = w[i]) : v = w :=
  Vector.ext fun i hi => h ⟨i, hi⟩

/-- One half of `G`, which mixes in one word of the block. -/
def halfG (state : Words) (a b c d : Fin 16) (m rd rb : UInt32) : Words :=
  let state := state.set a (state[a] + state[b] + m)
  let state := state.set d (rotR (state[d] ^^^ state[a]) rd)
  let state := state.set c (state[c] + state[d])
  state.set b (rotR (state[b] ^^^ state[c]) rb)

theorem g_eq_halfG (state : Words) (a b c d : Fin 16) (mx my : UInt32) :
    g state a b c d mx my = halfG (halfG state a b c d mx 16 12) a b c d my 8 7 := rfl

section Words

variable {a b c d : Fin 16} (hdistinct : [a, b, c, d].Nodup) (state : Words)
include hdistinct

theorem getElem_halfG (m rd rb : UInt32) (i : Fin 16) :
    (halfG state a b c d m rd rb)[i] =
      let a' := state[a] + state[b] + m
      let d' := rotR (state[d] ^^^ a') rd
      let c' := state[c] + d'
      if b = i then rotR (state[b] ^^^ c') rb else if c = i then c' else if d = i then d'
      else if a = i then a' else state[i] := by
  simp only [List.nodup_cons, List.mem_cons, List.not_mem_nil, or_false, not_or,
    ← Fin.val_inj] at hdistinct
  obtain ⟨⟨hab, hac, had⟩, ⟨hbc, hbd⟩, hcd, -⟩ := hdistinct
  simp only [halfG, Fin.getElem_fin, Vector.getElem_set, ← Fin.val_inj, hab, hac, had,
    Ne.symm hbc, Ne.symm hbd, Ne.symm hcd, reduceIte]

theorem getElem_g (mx my : UInt32) (i : Fin 16) :
    (g state a b c d mx my)[i] =
      let q := Blake3.quarterRound state[a] state[b] state[c] state[d] mx my
      if b = i then q.2.1 else if c = i then q.2.2.1 else if d = i then q.2.2.2
      else if a = i then q.1 else state[i] := by
  have h16 := rotR_eq (n := 16) (by decide) (by decide)
  have h12 := rotR_eq (n := 12) (by decide) (by decide)
  have h8 := rotR_eq (n := 8) (by decide) (by decide)
  have h7 := rotR_eq (n := 7) (by decide) (by decide)
  have hfirst := getElem_halfG hdistinct state mx 16 12
  rw [g_eq_halfG, getElem_halfG hdistinct]
  simp only [List.nodup_cons, List.mem_cons, List.not_mem_nil, or_false, not_or] at hdistinct
  obtain ⟨⟨hab, hac, had⟩, ⟨hbc, hbd⟩, hcd, -⟩ := hdistinct
  simp only [hfirst, Ne.symm hab, Ne.symm hac, Ne.symm had, hbc, hbd, hcd, Ne.symm hbc,
    Ne.symm hbd, Ne.symm hcd, reduceIte, h16, h12, h8, h7, Blake3.quarterRound]
  split_ifs <;> rfl

end Words

theorem columnStep_eq (state msg : Words) :
    g (g (g (g state 0 4 8 12 msg[0] msg[1]) 1 5 9 13 msg[2] msg[3]) 2 6 10 14 msg[4] msg[5])
      3 7 11 15 msg[6] msg[7] = Blake3.columnStep state msg := by
  have h0 := getElem_g (a := 0) (b := 4) (c := 8) (d := 12) (by decide)
  have h1 := getElem_g (a := 1) (b := 5) (c := 9) (d := 13) (by decide)
  have h2 := getElem_g (a := 2) (b := 6) (c := 10) (d := 14) (by decide)
  have h3 := getElem_g (a := 3) (b := 7) (c := 11) (d := 15) (by decide)
  refine words_ext fun i => ?_
  simp only [h0, h1, h2, h3, Fin.reduceEq, reduceIte]
  fin_cases i <;> rfl

theorem diagonalStep_eq (state msg : Words) :
    g (g (g (g state 0 5 10 15 msg[8] msg[9]) 1 6 11 12 msg[10] msg[11]) 2 7 8 13 msg[12] msg[13])
      3 4 9 14 msg[14] msg[15] = Blake3.diagonalStep state msg := by
  have h0 := getElem_g (a := 0) (b := 5) (c := 10) (d := 15) (by decide)
  have h1 := getElem_g (a := 1) (b := 6) (c := 11) (d := 12) (by decide)
  have h2 := getElem_g (a := 2) (b := 7) (c := 8) (d := 13) (by decide)
  have h3 := getElem_g (a := 3) (b := 4) (c := 9) (d := 14) (by decide)
  refine words_ext fun i => ?_
  simp only [h0, h1, h2, h3, Fin.reduceEq, reduceIte]
  fin_cases i <;> rfl

theorem round_eq (state msg : Words) :
    round state msg = Blake3.diagonalStep (Blake3.columnStep state msg) msg := by
  rw [← diagonalStep_eq, ← columnStep_eq]
  rfl

/-- The table of the source holds the powers of the permutation. -/
theorem scheduled_succ (msg : Words) (r : Fin 6) :
    scheduled msg r.succ = Blake3.permute (scheduled msg r.castSucc) := by
  have htable : ∀ (r : Fin 6) (i : Fin 16),
      msgSchedule[r.succ][i] = msgSchedule[r.castSucc][Blake3.permutation[i]] := by decide
  simp only [scheduled, Blake3.permute, htable]
  simp

theorem scheduled_zero (msg : Words) : scheduled msg 0 = msg := by
  have htable : ∀ i : Fin 16, msgSchedule[(0 : Fin 7)][i] = i := by decide
  refine Vector.ext fun i hi => ?_
  simp only [scheduled, htable]
  simp

theorem rounds_eq (state msg : Words) :
    (List.finRange 7).foldl (fun state r => round state (scheduled msg r)) state =
      Blake3.rounds 7 state msg := by
  have h := scheduled_succ msg
  have h0 : ∀ r : Fin 7, scheduled msg r = Blake3.permute^[r.val] msg := by
    intro r
    induction r using Fin.induction with
    | zero => exact scheduled_zero msg
    | succ r ih => rw [scheduled_succ, ih, Fin.val_succ, Function.iterate_succ_apply']; rfl
  simp [List.finRange, round_eq, h0, List.ofFn_succ, Blake3.rounds]

theorem bytes_or (b0 b1 b2 b3 : UInt8) : b0.toUInt32 ||| (b1.toUInt32 <<< 8) ||| (b2.toUInt32 <<< 16) ||| (b3.toUInt32 <<< 24) =
     UInt32.ofNat (b0.toNat + 2 ^ 8 * b1.toNat +
      2 ^ 16 * b2.toNat + 2 ^ 24 * b3.toNat) := by
  have h0 := b0.toNat_lt
  have h1 := b1.toNat_lt
  have h2 := b2.toNat_lt
  have h3 := b3.toNat_lt
  have e1 := Nat.two_pow_add_eq_or_of_lt (i := 8) h0 b1.toNat
  have e2 := Nat.two_pow_add_eq_or_of_lt (i := 16) (b := 2 ^ 8 * b1.toNat + b0.toNat) (by omega) b2.toNat
  have e3 := Nat.two_pow_add_eq_or_of_lt (i := 24) (b := 2 ^ 16 * b2.toNat + (2 ^ 8 * b1.toNat + b0.toNat)) (by omega) b3.toNat
  rw [← UInt32.toNat_inj]
  simp only [UInt32.toNat_or, UInt32.toNat_shiftLeft, UInt8.toNat_toUInt32, Nat.shiftLeft_eq, UInt32.toNat_ofNat']
  rw [show (8 : UInt32).toNat % 32 = 8 by decide, show (16 : UInt32).toNat % 32 = 16 by decide, show (24 : UInt32).toNat % 32 = 24 by decide]
  rw [Nat.mod_eq_of_lt (show b1.toNat * 2 ^ 8 < 2 ^ 32 by omega), Nat.mod_eq_of_lt (show b2.toNat * 2 ^ 16 < 2 ^ 32 by omega), Nat.mod_eq_of_lt (show b3.toNat * 2 ^ 24 < 2 ^ 32 by omega), Nat.mod_eq_of_lt (show _ < 2 ^ 32 by omega)]
  rw [mul_comm b1.toNat, mul_comm b2.toNat, mul_comm b3.toNat, Nat.or_comm b0.toNat, ← e1, Nat.or_comm _ (2 ^ 16 * b2.toNat), ← e2, Nat.or_comm _ (2 ^ 24 * b3.toNat), ← e3]
  omega

theorem parseBlock_eq (block : Vector UInt8 64) : parseBlock block = Blake3.blockWords block := by
  simp only [parseBlock, Blake3.blockWords, bytes_or]

theorem compress_eq (cv : ChainingValue) (c : Compression) :
    (Vector.ofFn fun i : Fin 8 => (compress cv c.block c.blockLen c.counter c.flags)[i.val]) =
      Blake3.compress cv c := by
  refine Vector.ext fun i hi => ?_
  simp [compress, Blake3.compress, Blake3.initialState, rounds_eq, parseBlock_eq]

/-! ## Runs of the hasher -/

open BlockStream (Cut)

/-- The compression that `Write` makes of a full block, the `i`-th of the message. -/
def fullCompression (b : List UInt8) (i : ℕ) : Compression :=
  ⟨Blake3.padBlock b, 64, UInt64.ofNat i, if i = 0 then Blake3.chunkStart else 0⟩

/-- The state with the full blocks `bs` compressed and `rest` gathered. -/
def gathered (bs : List (List UInt8)) (rest : List UInt8) (hrest : rest.length ≤ 64) : CBlake3 where
  cv := (bs.zipIdx.map fun (b, i) => fullCompression b i).foldl Blake3.compress Blake3.iv
  block := Blake3.padBlock rest
  block_len := rest.length
  counter := UInt64.ofNat bs.length
  flags := if bs.length = 0 then Blake3.chunkStart else 0
  bytes_consumed := bs.flatten.length + rest.length
  compressed := bs.zipIdx.map fun (b, i) => fullCompression b i
  block_len_le := hrest

theorem reset_eq_gathered : reset = gathered [] [] (by simp) := by
  have hblock : Vector.replicate 64 0 = Blake3.padBlock [] := by decide
  simp [reset, gathered, hblock]

variable {rest : List UInt8}

/-- Compressing a full block moves it to those that are done. The flags of the next one are empty,
and its counter is one more. -/
theorem compressFull_gathered (bs : List (List UInt8)) (hrest : rest.length ≤ 64) :
    (gathered bs rest hrest).compressFull = gathered (bs ++ [rest]) [] (by simp) := by
  have hcv := compress_eq (gathered bs rest hrest).cv (fullCompression rest bs.length)
  refine CBlake3.ext ?_ ?_ rfl ?_ ?_ ?_ ?_
  · simpa [gathered, List.zipIdx_append, compressFull, fullCompression] using hcv
  · exact (show Vector.replicate 64 0 = Blake3.padBlock [] by decide)
  · simp [gathered, compressFull]
  · simp only [gathered, compressFull]
    split_ifs <;> simp_all [Blake3.chunkStart]
  · simp [gathered, compressFull]
  · simp [gathered, compressFull, List.zipIdx_append, fullCompression]

variable {data : List UInt8}

theorem copy_gathered (bs : List (List UInt8)) (hrest : rest.length ≤ 64)
    (hdata : rest.length + data.length ≤ 64) :
    (gathered bs rest hrest).copy data hdata =
      gathered bs (rest ++ data) (by simpa using hdata) := by
  refine CBlake3.ext rfl ?_ ?_ rfl rfl ?_ rfl
  · exact BlockStream.overwrite_fill 0 rest data
  · simp [gathered, copy]
  · simp [gathered, copy, add_assoc]

/-- The hasher has read a message : the full blocks are compressed, except that the last one waits
for more. -/
def HasRead (h : CBlake3) (m : List UInt8) : Prop :=
  ∃ bs rest, ∃ hcut : Cut 64 m bs rest, (rest = [] → bs = []) ∧ h = gathered bs rest hcut.rest_le

theorem hasRead_reset : reset.HasRead [] := ⟨[], [], Cut.nil, fun _ => rfl, reset_eq_gathered⟩

variable {h : CBlake3} {m : List UInt8}

/-- One iteration of the loop of `Write`. -/
theorem HasRead.copy (hread : h.HasRead m) (hne : data ≠ [])
    (hdata : h.makeSpace.block_len + data.length ≤ 64) :
    (h.makeSpace.copy data hdata).HasRead (m ++ data) := by
  obtain ⟨bs, rest, hcut, -, rfl⟩ := hread
  by_cases hfull : rest.length = 64
  · have hspace : (gathered bs rest hcut.rest_le).makeSpace =
        gathered (bs ++ [rest]) [] (by simp) := by
      rw [← compressFull_gathered bs hcut.rest_le]
      exact if_pos hfull
    simp only [hspace] at hdata ⊢
    refine ⟨bs ++ [rest], data, (hcut.push hfull).append _ hdata, fun h => absurd h hne, ?_⟩
    exact copy_gathered _ _ hdata
  · have hspace : (gathered bs rest hcut.rest_le).makeSpace = gathered bs rest hcut.rest_le :=
      if_neg hfull
    simp only [hspace] at hdata ⊢
    refine ⟨bs, rest ++ data, hcut.append _ hdata, fun h => absurd h (by simp [hne]), ?_⟩
    exact copy_gathered _ _ hdata

theorem HasRead.write (hread : h.HasRead m) :
    (h.write data).HasRead (m ++ data) := by
  fun_induction CBlake3.write h data generalizing m with
  | case1 h => simpa using hread
  | case2 h data hne h' take =>
    rename_i ih
    have htake : data.take take ≠ [] := by
      have hlt := h.makeSpace_block_len_lt
      have hpos := List.length_pos_iff.mpr hne
      rw [← List.length_pos_iff, List.length_take]
      simp only [take, h']
      omega
    have hrest := ih (hread.copy htake _)
    rwa [List.append_assoc, List.take_append_drop] at hrest

/-- Any sequence of calls of `Write` reads the message they make up. -/
theorem hasRead_writes (writes : List (List UInt8)) :
    (writes.foldl CBlake3.write reset).HasRead writes.flatten := by
  induction writes using List.reverseRecOn with
  | nil => exact hasRead_reset
  | append_singleton writes data ih => simpa using ih.write

/-- The compressions that the implementation makes of a message : those of the hash, but with the
number of the block as the counter. -/
def countedCompressions (m : List UInt8) : List Compression :=
  let blocks := BlockStream.blocks 64 m
  blocks.zipIdx.map fun (b, i) =>
    { Blake3.blockCompression blocks.length b i with counter := UInt64.ofNat i }

theorem fullCompression_eq {b : List UInt8} {i n : ℕ} (hb : b.length = 64) (hi : i < n) :
    fullCompression b i =
      { Blake3.blockCompression (n + 1) b i with counter := UInt64.ofNat i } := by
  have hflags : ¬ i + 1 = n + 1 := by omega
  simp only [Blake3.blockCompression, if_neg hflags, hb, UInt8.or_zero]
  rfl

theorem HasRead.compressions_eq (hread : h.HasRead m) :
    h.compressions = countedCompressions m := by
  obtain ⟨bs, rest, hcut, hne, rfl⟩ := hread
  have hfull : bs.zipIdx.map (fun (b, i) => fullCompression b i) = bs.zipIdx.map fun (b, i) =>
      { Blake3.blockCompression (bs.length + 1) b i with counter := UInt64.ofNat i } := by
    refine List.map_congr_left fun p hp => ?_
    obtain ⟨-, hlt, hmem⟩ := List.mem_zipIdx hp
    refine fullCompression_eq (hcut.length_eq p.1 ?_) (by simpa using hlt)
    rw [hmem]
    exact List.getElem_mem _
  simp only [compressions, countedCompressions, hcut.blocks_eq (by decide) hne]
  simp only [gathered, hfull, List.zipIdx_append, List.map_append, List.length_append,
    List.length_singleton]
  simp [finalCompression, Blake3.blockCompression, UInt8.or_assoc]

/-- The counter of the second block is what sets the implementation apart. -/
theorem countedCompressions_eq_iff (m : List UInt8) :
    countedCompressions m = Blake3.compressions m ↔ m.length ≤ 64 := by
  constructor
  · intro h
    by_contra hlong
    have hblocks : BlockStream.blocks 64 m =
        m.take 64 :: BlockStream.blocks 64 (m.drop 64) := by
      rw [BlockStream.blocks, if_neg (by omega)]
    obtain ⟨b, bs, hrest⟩ := List.exists_cons_of_ne_nil (BlockStream.blocks_ne_nil (r := 64) (m.drop 64))
    have hsecond := congrArg (fun cs => cs[1]?.map Compression.counter) h
    simp [countedCompressions, Blake3.compressions, hblocks, hrest, Blake3.blockCompression] at hsecond
  · intro h
    simp [countedCompressions, Blake3.compressions, BlockStream.blocks_of_length_le h,
      Blake3.blockCompression]

theorem HasRead.finalize_eq (hread : h.HasRead m)
    (hlen : m.length ≤ 1024) : ∃ digest, h.finalize = some digest ∧ digest.data =
      Blake3.wordBytes (h.compressions.foldl Blake3.compress Blake3.iv) := by
  obtain ⟨bs, rest, hcut, hne, rfl⟩ := hread
  have hconsumed : ¬ (gathered bs rest hcut.rest_le).bytes_consumed > chunkLen := by
    have h := congrArg List.length hcut.eq
    rw [List.length_append] at h
    simp only [gathered, chunkLen]
    omega
  refine ⟨_, if_neg hconsumed, ?_⟩
  have hlast := compress_eq (gathered bs rest hcut.rest_le).cv
    (gathered bs rest hcut.rest_le).finalCompression
  rw [compressions, List.foldl_append, List.foldl_cons, List.foldl_nil]
  change _ = Blake3.wordBytes (Blake3.compress (gathered bs rest hcut.rest_le).cv _)
  rw [← hlast, Blake3.wordBytes, Vector.toList_ofFn, List.ofFn_eq_map, List.flatMap_map]

end CBlake3

end RadiantCore
