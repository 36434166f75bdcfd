import Mathlib.Data.Nat.Digits.Defs
import Mathlib.Data.Finset.Sort
import Mathlib.Data.UInt
import Mathlib.Tactic

/-!
# Fixed width blobs and little-endian integers

`base_blob` of `uint256.h` : an array of a fixed number of bytes, ordered from its most
significant, that is last, byte. Two widths matter for consensus : 32 bytes for
transaction and block identifiers and 36 bytes for the references of the induction
opcodes, which are an identifier followed by an output index in little-endian order.

The width is a field of the structure (`Blob.size_eq`), so that no blob of a wrong width
exists. Blobs of one width are linearly ordered by the number they encode in
little-endian (`Blob.toNat`), which is the order `base_blob::Compare` computes and the
order in which a `std::set` of them is iterated.
-/

namespace RadiantCore

/-! ## Little-endian integers -/

/-- The `k` low bytes of `x`, least significant first : `WriteLE16`, `WriteLE32` and
`WriteLE64` of `crypto/common.h`. -/
def writeLE : ℕ → ℕ → List UInt8
  | 0, _ => []
  | k + 1, x => UInt8.ofNat x :: writeLE k (x / 256)

/-- The number a byte string encodes, least significant byte first : `ReadLE16` and
`ReadLE32` of `crypto/common.h`. -/
def readLE : List UInt8 → ℕ
  | [] => 0
  | b :: bs => b.toNat + 256 * readLE bs

@[simp] theorem length_writeLE (k x : ℕ) : (writeLE k x).length = k := by
  induction k generalizing x with
  | zero => rfl
  | succ k ih => simp [writeLE, ih]

theorem readLE_lt (bs : List UInt8) : readLE bs < 256 ^ bs.length := by
  induction bs with
  | nil => simp [readLE]
  | cons b bs ih =>
    have hb := b.toNat_lt
    simp only [readLE, List.length_cons, pow_succ]
    omega

theorem readLE_writeLE (k x : ℕ) : readLE (writeLE k x) = x % 256 ^ k := by
  induction k generalizing x with
  | zero => simp [writeLE, readLE, Nat.mod_one]
  | succ k ih =>
    rw [writeLE, readLE, ih, pow_succ', Nat.mod_mul]
    simp

theorem readLE_injective {xs ys : List UInt8} (hlen : xs.length = ys.length)
    (h : readLE xs = readLE ys) : xs = ys := by
  induction xs generalizing ys with
  | nil => simpa using hlen.symm
  | cons x xs ih =>
    cases ys with
    | nil => simp at hlen
    | cons y ys =>
      have hx := x.toNat_lt
      have hy := y.toNat_lt
      simp only [readLE] at h
      have hxy : x = y := UInt8.toNat_inj.mp (by omega)
      rw [hxy, ih (by simpa using hlen) (by omega)]

/-- Numbers below `256 ^ k` are told apart by their `k` bytes. -/
theorem writeLE_injective {k x y : ℕ} (hx : x < 256 ^ k) (hy : y < 256 ^ k)
    (h : writeLE k x = writeLE k y) : x = y := by
  have hr := congrArg readLE h
  rwa [readLE_writeLE, readLE_writeLE, Nat.mod_eq_of_lt hx, Nat.mod_eq_of_lt hy] at hr

/-! ## Big-endian integers -/

/-- The number of a byte string with its first byte most significant. -/
def readBE (x : List UInt8) : ℕ := readLE x.reverse

/-- The byte string of length `k` of a number, the most significant byte first. -/
def writeBE (k v : ℕ) : List UInt8 := (writeLE k v).reverse

@[simp] theorem length_writeBE (k v : ℕ) : (writeBE k v).length = k := by simp [writeBE]

theorem readBE_lt (x : List UInt8) : readBE x < 256 ^ x.length := by
  simpa [readBE] using readLE_lt x.reverse

theorem readBE_writeBE {k v : ℕ} (h : v < 256 ^ k) : readBE (writeBE k v) = v := by
  rw [readBE, writeBE, List.reverse_reverse, readLE_writeLE, Nat.mod_eq_of_lt h]

theorem readBE_injective {x y : List UInt8} (hlen : x.length = y.length)
    (h : readBE x = readBE y) : x = y :=
  List.reverse_injective (readLE_injective (by simpa using hlen) h)

theorem eq_writeBE {x : List UInt8} {v : ℕ} (h : readBE x = v) : x = writeBE x.length v := by
  refine readBE_injective (by simp) ?_
  rw [h, readBE_writeBE (h ▸ readBE_lt x)]

/-! ## Blobs -/

/-- `base_blob` of `width` bytes. -/
@[ext] structure Blob (width : ℕ) where
  /-- The bytes, in memory order. -/
  data : List UInt8
  size_eq : data.length = width
deriving DecidableEq

/-- `uint160`. -/
abbrev Uint160 := Blob 20
/-- `uint256`. -/
abbrev Uint256 := Blob 32
/-- `uint288`, the type of a reference. -/
abbrev Uint288 := Blob 36

namespace Blob

variable {w : ℕ}

/-- `base_blob()` : all bytes are zero. -/
def null : Blob w := ⟨List.replicate w 0, List.length_replicate⟩

/-- A byte repeated. -/
def fill (b : UInt8) : Blob w := ⟨List.replicate w b, List.length_replicate⟩

instance : Inhabited (Blob w) := ⟨null⟩

/-- `base_blob::IsNull` : a scan for a non-zero byte. -/
def isNull (b : Blob w) : Bool := b.data.all (· == 0)

/-- `base_blob(vch)`, whose assertion wants as many bytes as the blob has. -/
def ofVch (vch : List UInt8) : Option (Blob w) :=
  if h : vch.length = w then some ⟨vch, h⟩ else none

theorem ofVch_eq_some_iff {vch : List UInt8} {b : Blob w} :
    ofVch vch = some b ↔ vch = b.data := by
  unfold ofVch
  constructor
  · intro h
    split at h
    · rw [← Option.some.inj h]
    · cases h
  · rintro rfl
    simp [b.size_eq]

@[simp] theorem ofVch_data (b : Blob w) : ofVch b.data = some b :=
  ofVch_eq_some_iff.mpr rfl

/-- `HexDigit`, of the character with this code. -/
def hexDigit (c : UInt8) : Option ℕ :=
  if 0x30 ≤ c ∧ c ≤ 0x39 then some (c.toNat - 0x30)
  else if 0x41 ≤ c ∧ c ≤ 0x46 then some (c.toNat - 0x37)
  else if 0x61 ≤ c ∧ c ≤ 0x66 then some (c.toNat - 0x57)
  else none

/-- `IsSpace`, of the character with this code. -/
def isSpace (c : UInt8) : Bool := c = 0x20 ∨ 0x09 ≤ c ∧ c ≤ 0x0d

/-- `base_blob::SetHex` : the number written in hexadecimal digits at the start of a string,
after spaces and `0x`. -/
def setHex (psz : List UInt8) : Blob w :=
  let digits := psz.dropWhile isSpace
  let digits := if digits.take 2 = [0x30, 0x78] ∨ digits.take 2 = [0x30, 0x58] then digits.drop 2
    else digits
  let digits := (digits.takeWhile fun c => (hexDigit c).isSome).filterMap hexDigit
  ⟨writeLE w (digits.foldl (fun n d => 16 * n + d) 0), by simp⟩

/-- The number the blob encodes, least significant byte first. -/
def toNat (b : Blob w) : ℕ := readLE b.data

theorem toNat_injective : Function.Injective (toNat : Blob w → ℕ) := fun a b h =>
  Blob.ext (readLE_injective (a.size_eq.trans b.size_eq.symm) h)

/-- The order of `base_blob::Compare`, which reads from the most significant byte. -/
instance : LinearOrder (Blob w) := LinearOrder.lift' toNat toNat_injective

end Blob

end RadiantCore
