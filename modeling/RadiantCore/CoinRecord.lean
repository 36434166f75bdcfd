import RadiantCore.AmountCompression
import RadiantCore.Interpreter
import RadiantCore.VarInt

/-!
# Records of coins

A coin is stored in the database of unspent coins (`Coin::Serialize`) and, once it is spent, in the
undo data of the block that spends it (`TxInUndoFormatter`). Both write the height and the flag in one
number of variable length, the amount with `CompressAmount` and the script with `ScriptCompression`.

The latter knows six short forms, for payments to a key hash, a script hash and a public key. Their
number stands where the other scripts have their size, which is written with six added to it. The
64-byte form of a key is restored from 32 bytes and a parity by `CPubKey::Decompress`.

A coin is read back as it was written (`coin_round_trips`).
-/

namespace RadiantCore

open List Opcode Option

/-! ## Public keys -/

/-- What `CPubKey` asks of the elliptic curve : whether the bytes of a key are a point, and the long
form of a key in the short form. -/
structure PubKeyCurve where
  isFullyValid : List UInt8 → Bool
  decompress : List UInt8 → Option (List UInt8)

namespace CPubKey

/-- `CPubKey::GetLen`. -/
def getLen (chHeader : UInt8) : ℕ :=
  if chHeader = 2 ∨ chHeader = 3 then 33
  else if chHeader = 4 ∨ chHeader = 6 ∨ chHeader = 7 then 65
  else 0

/-- `CPubKey::size`. -/
def size (key : List UInt8) : ℕ := (key.head?.map getLen).getD 0

/-- `CPubKey::Set` : bytes of another length than their header says give an invalid key. -/
def set (b : List UInt8) : List UInt8 := if size b ≠ 0 ∧ size b = b.length then b else [0xFF]

end CPubKey

/-- Decompression inverts compression : a valid key in the long form is found from its first
coordinate and the parity of the second. -/
def PubKeyCurve.Inverts (curve : PubKeyCurve) : Prop :=
  ∀ x y : List UInt8, x.length = 32 → y.length = 31 → ∀ b : UInt8,
    curve.isFullyValid (4 :: (x ++ y ++ [b])) = true →
      curve.decompress ((2 + (b &&& 1)) :: x) = some (4 :: (x ++ y ++ [b]))

/-! ## Scripts -/

section Scripts

variable (curve : PubKeyCurve)

/-- `IsToKeyID`. -/
def isToKeyID (script : CScript) : Option (List UInt8) :=
  if isPayToPubKeyHash script then some ((script.drop 3).take 20) else none

/-- `IsToScriptID`. -/
def isToScriptID (script : CScript) : Option (List UInt8) :=
  if isPayToScriptHash script then some ((script.drop 2).take 20) else none

/-- `IsToPubKey`. -/
def isToPubKey (script : CScript) : Option (List UInt8) :=
  if script.length = 35 ∧ script[0]? = some 33 ∧ script[34]? = some OP_CHECKSIG.toByte ∧
      (script[1]? = some 0x02 ∨ script[1]? = some 0x03) then
    some (CPubKey.set ((script.drop 1).take 33))
  else if script.length = 67 ∧ script[0]? = some 65 ∧ script[66]? = some OP_CHECKSIG.toByte ∧
      script[1]? = some 0x04 then
    let pubkey := CPubKey.set ((script.drop 1).take 65)
    if curve.isFullyValid pubkey then some pubkey else none
  else none

/-- `CompressScript`. -/
def compressScript (script : CScript) : Option (List UInt8) :=
  match isToKeyID script, isToScriptID script, isToPubKey curve script with
  | some keyID, _, _ => some (0x00 :: keyID)
  | none, some scriptID, _ => some (0x01 :: scriptID)
  | none, none, some pubkey =>
    let out := (pubkey.drop 1).take 32
    if pubkey[0]? = some 0x02 ∨ pubkey[0]? = some 0x03 then some (pubkey.getD 0 0 :: out)
    else if pubkey[0]? = some 0x04 then some ((0x04 ||| (pubkey.getD 64 0 &&& 0x01)) :: out)
    else none
  | none, none, none => none

/-- `GetSpecialScriptSize`. -/
def getSpecialScriptSize (nSize : ℕ) : ℕ :=
  if nSize = 0 ∨ nSize = 1 then 20
  else if nSize = 2 ∨ nSize = 3 ∨ nSize = 4 ∨ nSize = 5 then 32
  else 0

/-- `DecompressScript`, `none` when it returns false. -/
def decompressScript (nSize : ℕ) (data : List UInt8) : Except Failure (Option CScript) :=
  match nSize with
  | 0x00 => .ok (some ([OP_DUP.toByte, OP_HASH160.toByte, 20] ++ data.take 20 ++
      [OP_EQUALVERIFY.toByte, OP_CHECKSIG.toByte]))
  | 0x01 => .ok (some ([OP_HASH160.toByte, 20] ++ data.take 20 ++ [OP_EQUAL.toByte]))
  | 0x02 | 0x03 =>
    .ok (some ([33, UInt8.ofNat nSize] ++ data.take 32 ++ [OP_CHECKSIG.toByte]))
  | 0x04 | 0x05 =>
    match curve.decompress (CPubKey.set (UInt8.ofNat (nSize - 2) :: data.take 32)) with
    | none => .ok none
    | some pubkey => do
      require (CPubKey.size pubkey = 65) (.abort "pubkey.size() == 65")
      return some ([65] ++ pubkey.take 65 ++ [OP_CHECKSIG.toByte])
  | _ => .ok none

/-- Read so many bytes. -/
def Reader.span (size : ℕ) : Reader (List UInt8) := fun is =>
  if size ≤ is.length then .ok (is.take size, is.drop size) else .error (.exception "end of data")

namespace ScriptCompression

/-- `ScriptCompression::nSpecialScripts`. -/
def nSpecialScripts : ℕ := 6

/-- `ScriptCompression::Ser`. -/
def ser (script : CScript) : List UInt8 :=
  match compressScript curve script with
  | some compr => compr
  | none => writeVarInt ((script.length + nSpecialScripts) % 2 ^ 32) ++ script

/-- `ScriptCompression::Unser`, into a script. -/
def unser (script : CScript) : Reader CScript := do
  let nSize ← readVarInt 32
  if nSize < nSpecialScripts then
    let vch ← Reader.span (getSpecialScriptSize nSize)
    let result ← decompressScript curve nSize vch
    return result.getD script
  else if nSize - nSpecialScripts > maxScriptSize then
    let _ ← Reader.span (nSize - nSpecialScripts)
    return script ++ [OP_RETURN.toByte]
  else Reader.span (nSize - nSpecialScripts)

end ScriptCompression

end Scripts

/-! ## Coins -/

namespace AmountCompression

/-- `AmountCompression::Ser`. -/
def ser (val : Int64) : Except Failure (List UInt8) := do
  let v ← compressAmount wrap64 val.toInt
  return writeVarInt v.toNat

/-- `AmountCompression::Unser`. -/
def unser : Reader Int64 := do
  let v ← readVarInt 64
  let val ← decompressAmount wrap64 v
  return Int64.ofInt val

end AmountCompression

section Coins

variable (curve : PubKeyCurve)

namespace TxOutCompression

/-- `TxOutCompression`, writing. -/
def ser (out : CTxOut) : Except Failure (List UInt8) := do
  let nValue ← AmountCompression.ser out.nValue
  return nValue ++ ScriptCompression.ser curve out.scriptPubKey

/-- `TxOutCompression`, reading into an output. -/
def unser (out : CTxOut) : Reader CTxOut := do
  let nValue ← AmountCompression.unser
  let scriptPubKey ← ScriptCompression.unser curve out.scriptPubKey
  return ⟨nValue, scriptPubKey⟩

end TxOutCompression

namespace Coin

/-- The member `nHeightAndIsCoinBase`. -/
def heightAndIsCoinBase (coin : Coin) : ℕ := (coin.nHeight * 2) % 2 ^ 32 + coin.fCoinBase.toNat

/-- A coin with this member. -/
def ofHeightAndIsCoinBase (out : CTxOut) (nHeightAndIsCoinBase : ℕ) : Coin :=
  ⟨out, nHeightAndIsCoinBase / 2, nHeightAndIsCoinBase % 2 = 1⟩

/-- `Coin::Serialize`. -/
def serialize (coin : Coin) : Except Failure (List UInt8) := do
  require (coin.isSpent = false) (.abort "!IsSpent()")
  let out ← TxOutCompression.ser curve coin.out
  return writeVarInt coin.heightAndIsCoinBase ++ out

/-- `Coin::Unserialize`, into a coin. -/
def unserialize (coin : Coin) : Reader Coin := do
  let nHeightAndIsCoinBase ← readVarInt 32
  let out ← TxOutCompression.unser curve coin.out
  return ofHeightAndIsCoinBase out nHeightAndIsCoinBase

end Coin

namespace TxInUndoFormatter

/-- `TxInUndoFormatter::Ser`. -/
def ser (txout : Coin) : Except Failure (List UInt8) := do
  let out ← TxOutCompression.ser curve txout.out
  return writeVarInt ((txout.nHeight * 2 + txout.fCoinBase.toNat) % 2 ^ 32) ++
    (if txout.nHeight > 0 then [0] else []) ++ out

/-- The version of old undo data. -/
def versionDummy (nHeight : ℕ) : Reader Unit :=
  if nHeight > 0 then do
    let _nVersionDummy ← readVarInt 32
    return
  else return

/-- `TxInUndoFormatter::Unser`. -/
def unser : Reader Coin := do
  let nCode ← readVarInt 32
  versionDummy (nCode / 2)
  let out ← TxOutCompression.unser curve ⟨-1, []⟩
  return ⟨out, nCode / 2, nCode % 2 = 1⟩

end TxInUndoFormatter

end Coins

/-! ## Scripts are read back -/

section Templates

variable {s : CScript} {curve : PubKeyCurve}

theorem isToKeyID_eq_some {hash : List UInt8} (h : isToKeyID s = some hash) :
    hash.length = 20 ∧ s = [OP_DUP.toByte, OP_HASH160.toByte, 20] ++ hash ++
      [OP_EQUALVERIFY.toByte, OP_CHECKSIG.toByte] := by
  unfold isToKeyID isPayToPubKeyHash at h
  split_ifs at h with hs
  obtain ⟨hlen, h0, h1, h2, h23, h24⟩ := of_decide_eq_true hs
  obtain rfl := some.inj h
  refine ⟨by simp [hlen], ?_⟩
  have hall : s = s.take 25 := (take_of_length_le hlen.le).symm
  rw [take_add_one, take_add_one, show 23 = 3 + 20 from rfl, take_add] at hall
  simpa [take_add_one, h0, h1, h2, h23, h24] using hall

theorem isToScriptID_eq_some {hash : List UInt8} (h : isToScriptID s = some hash) :
    hash.length = 20 ∧ s = [OP_HASH160.toByte, 20] ++ hash ++ [OP_EQUAL.toByte] := by
  unfold isToScriptID isPayToScriptHash at h
  split_ifs at h with hs
  obtain ⟨hlen, h0, h1, h22⟩ := of_decide_eq_true hs
  obtain rfl := some.inj h
  refine ⟨by simp [hlen], ?_⟩
  have hall : s = s.take 23 := (take_of_length_le hlen.le).symm
  rw [take_add_one, show 22 = 2 + 20 from rfl, take_add] at hall
  simpa [take_add_one, h0, h1, h22] using hall

theorem CPubKey.set_eq_self {b : List UInt8} {n : ℕ} (hsize : CPubKey.size b = n) (hn : n ≠ 0)
    (hlen : b.length = n) : CPubKey.set b = b := by
  rw [CPubKey.set, if_pos ⟨by rw [hsize]; exact hn, hsize.trans hlen.symm⟩]

theorem eq_of_first_last {n : ℕ} {a z b : UInt8} (hlen : s.length = n + 1 + 1)
    (hfirst : s[0]? = some a) (hlast : s[n + 1]? = some z) (hn : 1 ≤ n) (hhead : s[1]? = some b) :
    ∃ q : List UInt8, q.length + 1 = n ∧ (s.drop 1).take n = b :: q ∧
      s = [a] ++ (b :: q) ++ [z] := by
  have hall : s = s.take (1 + n + 1) := (take_of_length_le (by omega)).symm
  rw [take_add_one, take_add, show 1 + n = n + 1 from Nat.add_comm 1 n, hlast] at hall
  have hmid : ((s.drop 1).take n).length = n := by
    rw [length_take, length_drop]
    omega
  have hfront : s.take 1 = [a] := by simp [take_add_one, hfirst]
  obtain ⟨b', q, hq⟩ := exists_cons_of_ne_nil (ne_nil_of_length_pos (by omega :
    0 < ((s.drop 1).take n).length))
  have hb : ((s.drop 1).take n)[0]? = some b := by
    rw [getElem?_take_of_lt (by omega), getElem?_drop, hhead]
  rw [hq] at hb hmid hall ⊢
  obtain rfl := some.inj hb
  rw [hfront] at hall
  exact ⟨q, hmid, rfl, hall⟩

/-- A script that pays to a public key, in the short or in the long form. -/
theorem isToPubKey_eq_some {key : List UInt8} (h : isToPubKey curve s = some key) :
    ∃ x : List UInt8, x.length = 32 ∧
      ((∃ b : UInt8, (b = 2 ∨ b = 3) ∧ key = b :: x ∧
        s = [33] ++ (b :: x) ++ [OP_CHECKSIG.toByte]) ∨
      ∃ (y : List UInt8) (b : UInt8), y.length = 31 ∧ key = 4 :: (x ++ y ++ [b]) ∧
        curve.isFullyValid key = true ∧ s = [65] ++ key ++ [OP_CHECKSIG.toByte]) := by
  unfold isToPubKey at h
  by_cases hshort : s.length = 35 ∧ s[0]? = some 33 ∧ s[34]? = some OP_CHECKSIG.toByte ∧
      (s[1]? = some 0x02 ∨ s[1]? = some 0x03)
  · rw [if_pos hshort] at h
    obtain ⟨hlen, h0, h34, h1⟩ := hshort
    obtain ⟨b, hb, h1⟩ : ∃ b : UInt8, (b = 2 ∨ b = 3) ∧ s[1]? = some b :=
      h1.elim (fun h => ⟨2, Or.inl rfl, h⟩) fun h => ⟨3, Or.inr rfl, h⟩
    obtain ⟨x, hx, hmid, hs⟩ := @eq_of_first_last s 33 _ _ _ hlen h0 h34 (by norm_num) h1
    have hsize : CPubKey.size (b :: x) = 33 := by
      rcases hb with rfl | rfl <;> rfl
    rw [hmid, CPubKey.set_eq_self hsize (by norm_num) hx] at h
    exact ⟨x, Nat.succ.inj hx, Or.inl ⟨b, hb, (some.inj h).symm, hs⟩⟩
  rw [if_neg hshort] at h
  by_cases hlong : s.length = 67 ∧ s[0]? = some 65 ∧ s[66]? = some OP_CHECKSIG.toByte ∧
      s[1]? = some 0x04
  · rw [if_pos hlong] at h
    obtain ⟨hlen, h0, h66, h1⟩ := hlong
    obtain ⟨q, hq, hmid, hs⟩ := @eq_of_first_last s 65 _ _ _ hlen h0 h66 (by norm_num) h1
    rw [hmid, CPubKey.set_eq_self (by rfl : CPubKey.size (4 :: q) = 65) (by norm_num) hq] at h
    dsimp only at h
    split_ifs at h with hvalid
    obtain rfl := some.inj h
    obtain ⟨y, b, hy⟩ : ∃ y b, q.drop 32 = y ++ [b] :=
      ⟨_, _, (dropLast_concat_getLast (ne_nil_of_length_pos (by
        rw [length_drop]; omega))).symm⟩
    have hdrop := congrArg length hy
    rw [length_drop, length_append, length_singleton] at hdrop
    refine ⟨q.take 32, by rw [length_take]; omega, Or.inr ⟨y, b, by omega, ?_, hvalid, hs⟩⟩
    rw [append_assoc, ← hy, take_append_drop]
  · rw [if_neg hlong] at h
    cases h

theorem parity_cases (b : UInt8) : b &&& 1 = 0 ∨ b &&& 1 = 1 := by
  have hmod : (b &&& 1).toNat = b.toNat % 2 := by
    rw [UInt8.toNat_and]
    exact Nat.and_one_is_mod _
  rcases Nat.mod_two_eq_zero_or_one b.toNat with h | h
  · exact Or.inl (UInt8.toNat_inj.mp (hmod.trans h))
  · exact Or.inr (UInt8.toNat_inj.mp (hmod.trans h))

/-- A key in the long form is restored from its half and the parity. -/
theorem decompressScript_key {x key : List UInt8} {nSize : ℕ} (hsize : nSize = 4 ∨ nSize = 5)
    (hx : x.length = 32) (hkey : key.length = 65) (hhead : CPubKey.size key = 65)
    (h : curve.decompress (UInt8.ofNat (nSize - 2) :: x) = some key) :
    decompressScript curve nSize x = .ok (some ([65] ++ key ++ [OP_CHECKSIG.toByte])) := by
  have hset : CPubKey.set (UInt8.ofNat (nSize - 2) :: x) = UInt8.ofNat (nSize - 2) :: x := by
    refine @CPubKey.set_eq_self _ 33 ?_ (by norm_num) (by rw [length_cons, hx])
    rcases hsize with rfl | rfl <;> rfl
  have hbody : decompressScript curve nSize x =
      match curve.decompress (CPubKey.set (UInt8.ofNat (nSize - 2) :: x.take 32)) with
      | none => .ok none
      | some pubkey => do
        require (CPubKey.size pubkey = 65) (.abort "pubkey.size() == 65")
        return some ([65] ++ pubkey.take 65 ++ [OP_CHECKSIG.toByte]) := by
    rcases hsize with rfl | rfl <;> rfl
  rw [hbody, take_of_length_le hx.le, hset, h]
  dsimp only
  rw [require_pos hhead, take_of_length_le hkey.le]
  rfl

/-- What is written for a short form, and that the script is found from it. -/
theorem compressScript_eq_some (hcurve : curve.Inverts) {compr : List UInt8}
    (h : compressScript curve s = some compr) :
    ∃ nSize data, nSize < ScriptCompression.nSpecialScripts ∧
      compr = UInt8.ofNat nSize :: data ∧ data.length = getSpecialScriptSize nSize ∧
      decompressScript curve nSize data = .ok (some s) := by
  unfold compressScript at h
  split at h
  · rename_i keyID hkey
    obtain rfl := some.inj h
    obtain ⟨hlen, hs⟩ := isToKeyID_eq_some hkey
    refine ⟨0, keyID, by decide, rfl, hlen, ?_⟩
    rw [decompressScript, take_of_length_le hlen.le, ← hs]
  · rename_i scriptID hkey hscript
    obtain rfl := some.inj h
    obtain ⟨hlen, hs⟩ := isToScriptID_eq_some hscript
    refine ⟨1, scriptID, by decide, rfl, hlen, ?_⟩
    rw [decompressScript, take_of_length_le hlen.le, ← hs]
  · rename_i pubkey hkey hscript hpubkey
    obtain ⟨x, hx, ⟨b, hb, rfl, hs⟩ | ⟨y, b, hy, rfl, hvalid, hs⟩⟩ := isToPubKey_eq_some hpubkey
    · have hfirst : (b :: x)[0]? = some 2 ∨ (b :: x)[0]? = some 3 :=
        hb.imp (congrArg some) (congrArg some)
      rw [if_pos hfirst, drop_one, tail_cons, take_of_length_le hx.le] at h
      obtain rfl := some.inj h
      rcases hb with rfl | rfl
      · refine ⟨2, x, by decide, rfl, hx, ?_⟩
        rw [decompressScript, take_of_length_le hx.le, hs]
        rfl
      · refine ⟨3, x, by decide, rfl, hx, ?_⟩
        rw [decompressScript, take_of_length_le hx.le, hs]
        rfl
    · have hfirst : ¬((4 :: (x ++ y ++ [b]) : List UInt8)[0]? = some 2 ∨
          (4 :: (x ++ y ++ [b]) : List UInt8)[0]? = some 3) := by simp
      have hlast : (4 :: (x ++ y ++ [b]) : List UInt8).getD 64 0 = b := by
        have hxy : (x ++ y).length = 63 := by rw [length_append]; omega
        rw [getD_cons_succ, getD_append_right _ _ _ _ (by omega), hxy]
        rfl
      have hdata : ((4 :: (x ++ y ++ [b]) : List UInt8).drop 1).take 32 = x := by
        rw [drop_one, tail_cons, append_assoc, take_left' hx]
      have hlen : (4 :: (x ++ y ++ [b]) : List UInt8).length = 65 := by
        simp only [length_cons, length_append, length_nil]
        omega
      rw [if_neg hfirst, if_pos (by rfl), hlast, hdata] at h
      obtain rfl := some.inj h
      have hkey := hcurve x y hx hy b hvalid
      rcases parity_cases b with hb | hb
      · rw [hb] at hkey ⊢
        refine ⟨4, x, by decide, rfl, hx, ?_⟩
        rw [hs]
        exact decompressScript_key (Or.inl rfl) hx hlen rfl hkey
      · rw [hb] at hkey ⊢
        refine ⟨5, x, by decide, rfl, hx, ?_⟩
        rw [hs]
        exact decompressScript_key (Or.inr rfl) hx hlen rfl hkey
  · cases h

end Templates

theorem Reader.span_reads (data : List UInt8) : Reads (Reader.span data.length) data data := by
  intro rest
  rw [Reader.span, if_pos (by simp)]
  simp

theorem Reads.bind_nil {α β : Type} {r : Reader α} {f : α → Reader β} {written : List UInt8} {a : α}
    {b : β} (hr : Reads r written a) (hf : Reads (f a) [] b) : Reads (r >>= f) written b := by
  have h := hr.bind hf
  rwa [append_nil] at h

theorem Reads.lift {α : Type} {x : Except Failure α} {a : α} (h : x = .ok a) :
    Reads (liftM x : Reader α) [] a := by
  intro rest
  change (x >>= fun a => .ok (a, rest)) = _
  rw [h]
  rfl

section RoundTrip

variable {curve : PubKeyCurve}

/-- A script is read back, whatever script it is read into. -/
theorem ScriptCompression.unser_reads (hcurve : curve.Inverts) {script : CScript}
    (hsize : script.length ≤ maxScriptSize) (old : CScript) :
    Reads (unser curve old) (ser curve script) script := by
  unfold ser
  cases hcompress : compressScript curve script with
  | some compr =>
    obtain ⟨nSize, data, hspecial, rfl, hlen, hscript⟩ := compressScript_eq_some hcurve hcompress
    have hsmall : nSize < 128 := hspecial.trans (by decide)
    rw [← singleton_append, ← writeVarInt_of_lt hsmall]
    refine (readVarInt_reads (hsmall.trans (by norm_num))).bind ?_
    rw [if_pos hspecial, ← hlen]
    exact (Reader.span_reads data).bind_nil ((Reads.lift hscript).bind_nil (Reads.pure _))
  | none =>
    have hmax : maxScriptSize = 32000000 := rfl
    have hspecial : nSpecialScripts = 6 := rfl
    rw [Nat.mod_eq_of_lt (by omega)]
    refine (readVarInt_reads (by omega)).bind ?_
    rw [if_neg (by omega), Nat.add_sub_cancel, if_neg (by omega)]
    exact Reader.span_reads script

theorem wrap64_range {v r : ℤ} (h : wrap64 v = .ok r) : 0 ≤ r ∧ r < 2 ^ 64 := by
  obtain rfl := wrapped_eq_ok_iff.mp h
  exact ⟨Int.emod_nonneg _ (by norm_num), Int.emod_lt_of_pos _ (by norm_num)⟩

theorem compressAmount_range {a x : ℤ} (h : compressAmount wrap64 a = .ok x) :
    0 ≤ x ∧ x < 2 ^ 64 := by
  unfold compressAmount at h
  dsimp only at h
  split_ifs at h
  · obtain rfl := Except.ok.inj h
    norm_num
  · simp only [bind_eq_ok_iff, exists_unit_iff, require_eq_ok_iff] at h
    obtain ⟨_, _, _, _, _, _, _, _, _, _, _, h⟩ := h
    exact wrap64_range h
  · simp only [bind_eq_ok_iff] at h
    obtain ⟨_, _, _, _, _, _, h⟩ := h
    exact wrap64_range h

/-- The amount is read back from what `CompressAmount` makes of it. -/
def AmountStored (a : Int64) : Prop :=
  ∃ x, compressAmount wrap64 a.toInt = .ok x ∧ decompressAmount wrap64 x = .ok a.toInt

theorem AmountCompression.unser_reads {a : Int64} (h : AmountStored a) :
    ∃ bytes, ser a = .ok bytes ∧ Reads unser bytes a := by
  obtain ⟨x, hx, ha⟩ := h
  obtain ⟨hnonneg, hlt⟩ := compressAmount_range hx
  refine ⟨writeVarInt x.toNat, by rw [ser, hx]; rfl, ?_⟩
  have hread : decompressAmount wrap64 (x.toNat : ℤ) = .ok a.toInt := by
    rw [Int.toNat_of_nonneg hnonneg, ha]
  have hval : Reads (pure (Int64.ofInt a.toInt) : Reader Int64) [] a := by
    rw [Int64.ofInt_toInt]
    exact Reads.pure a
  exact (readVarInt_reads (by omega)).bind_nil ((Reads.lift hread).bind_nil hval)

theorem TxOutCompression.unser_reads (hcurve : curve.Inverts) {out : CTxOut}
    (hamount : AmountStored out.nValue) (hsize : out.scriptPubKey.length ≤ maxScriptSize) :
    ∃ bytes, ser curve out = .ok bytes ∧ ∀ old, Reads (unser curve old) bytes out := by
  obtain ⟨value, hvalue, hread⟩ := AmountCompression.unser_reads hamount
  refine ⟨value ++ ScriptCompression.ser curve out.scriptPubKey, ?_, fun old => ?_⟩
  · rw [ser, hvalue]
    rfl
  · exact hread.bind ((ScriptCompression.unser_reads hcurve hsize _).bind_nil (Reads.pure _))

/-- An amount that is stored is not that of a spent coin. -/
theorem isSpent_of_stored {coin : Coin} (h : AmountStored coin.out.nValue) :
    coin.isSpent = false := by
  unfold Coin.isSpent CTxOut.isNull
  refine decide_eq_false fun hnull => ?_
  rw [hnull] at h
  obtain ⟨x, hx, hread⟩ := h
  have hpacked : compressAmount wrap64 (-1 : Int64).toInt = .ok 18446744073709551603 := by
    decide +kernel
  obtain rfl := Except.ok.inj (hpacked.symm.trans hx)
  exact absurd hread (by decide +kernel)

/-- The dummy byte of the undo data is read as a number of variable length. -/
theorem TxInUndoFormatter.versionDummy_reads (nHeight : ℕ) :
    Reads (versionDummy nHeight) (if nHeight > 0 then [0] else []) () := by
  have hzero : Reads (readVarInt 32) [0] 0 := by
    have h := @readVarInt_reads 32 0 (by norm_num)
    rwa [writeVarInt_of_lt (by norm_num)] at h
  unfold versionDummy
  split_ifs
  · exact hzero.bind_nil (Reads.pure ())
  · exact Reads.pure ()

section Code

variable {nHeight : ℕ} (fCoinBase : Bool)

theorem code_lt (h : nHeight < 2 ^ 31) : nHeight * 2 + fCoinBase.toNat < 2 ^ 32 := by
  have := Bool.toNat_le fCoinBase
  omega

theorem code_div : (nHeight * 2 + fCoinBase.toNat) / 2 = nHeight := by
  have := Bool.toNat_le fCoinBase
  omega

theorem code_mod : decide ((nHeight * 2 + fCoinBase.toNat) % 2 = 1) = fCoinBase := by
  cases fCoinBase <;> simp

end Code

/-- A coin is read back from its record in the database, whatever coin it is read into, and from its
record in the undo data. -/
theorem coin_round_trips (hcurve : curve.Inverts) (coin : Coin) (hheight : coin.nHeight < 2 ^ 31)
    (hsize : coin.out.scriptPubKey.length ≤ maxScriptSize)
    (hamount : AmountStored coin.out.nValue) :
    (∃ bytes, coin.serialize curve = .ok bytes ∧
      ∀ old, Reads (Coin.unserialize curve old) bytes coin) ∧
    ∃ bytes, TxInUndoFormatter.ser curve coin = .ok bytes ∧
      Reads (TxInUndoFormatter.unser curve) bytes coin := by
  obtain ⟨out, hout, hread⟩ := TxOutCompression.unser_reads hcurve hamount hsize
  have hcode := code_lt coin.fCoinBase hheight
  constructor
  · have hpacked : coin.heightAndIsCoinBase = coin.nHeight * 2 + coin.fCoinBase.toNat := by
      rw [Coin.heightAndIsCoinBase, Nat.mod_eq_of_lt (by omega)]
    refine ⟨writeVarInt coin.heightAndIsCoinBase ++ out, ?_, fun old => ?_⟩
    · rw [Coin.serialize, require_pos (isSpent_of_stored hamount), ok_bind, hout]
      rfl
    · rw [hpacked]
      refine (readVarInt_reads hcode).bind ((hread _).bind_nil ?_)
      rw [Coin.ofHeightAndIsCoinBase, code_div, code_mod]
      exact Reads.pure coin
  · refine ⟨_, by rw [TxInUndoFormatter.ser, hout]; rfl, ?_⟩
    rw [Nat.mod_eq_of_lt hcode, append_assoc]
    refine (readVarInt_reads hcode).bind ?_
    rw [code_div, code_mod]
    exact (TxInUndoFormatter.versionDummy_reads _).bind ((hread _).bind_nil (Reads.pure coin))

end RoundTrip

/-- A curve whose second coordinate is the parity. -/
def sampleCurve : PubKeyCurve where
  isFullyValid key := key.drop 33 = replicate 31 0 ++ [key.getD 64 0 &&& 1]
  decompress key := some (4 :: (key.drop 1 ++ replicate 31 0 ++ [key.getD 0 0 - 2]))

theorem sampleCurve_inverts : sampleCurve.Inverts := by
  intro x y hx hy b hvalid
  have hxy : (x ++ y).length = 63 := by rw [length_append]; omega
  have hlast : (4 :: (x ++ y ++ [b]) : List UInt8).getD 64 0 = b := by
    rw [getD_cons_succ, getD_append_right _ _ _ _ (by omega), hxy]
    rfl
  have hdrop : (4 :: (x ++ y ++ [b]) : List UInt8).drop 33 = y ++ [b] := by
    rw [drop_succ_cons, append_assoc, drop_left' hx]
  have heq := of_decide_eq_true hvalid
  rw [hlast, hdrop] at heq
  obtain ⟨rfl, hb⟩ := append_inj' heq rfl
  have hparity : b = 0 ∨ b = 1 := by
    rw [singleton_inj.mp hb]
    exact parity_cases b
  change some (4 :: (x ++ replicate 31 0 ++ [2 + (b &&& 1) - 2])) = _
  rcases hparity with rfl | rfl <;> rfl

/-- A coinbase output of 50 coins at height 7 that pays to a key in the long form. -/
def sampleKeyCoin : Coin :=
  ⟨⟨5000000000, [65, 4] ++ replicate 32 9 ++ replicate 31 0 ++ [1, OP_CHECKSIG.toByte]⟩,
    7, true⟩

/-- The coin is stored with the half of its key. -/
theorem coin_round_trips_sample :
    compressScript sampleCurve sampleKeyCoin.out.scriptPubKey = some (5 :: replicate 32 9) ∧
    ∃ bytes, sampleKeyCoin.serialize sampleCurve = .ok bytes ∧
      ∀ old, Reads (Coin.unserialize sampleCurve old) bytes sampleKeyCoin :=
  ⟨by decide +kernel, (coin_round_trips sampleCurve_inverts sampleKeyCoin (by decide) (by decide)
    ⟨50, by decide +kernel, by decide +kernel⟩).1⟩

end RadiantCore
