import RadiantCore.FixedPoint
import RadiantCore.MoneyString

/-!
# Amounts of the RPC interface

`ValueFromAmount` writes an amount as a number of JSON with eight digits after the point, and
`AmountFromValue` reads one with the parser of fixed-point numbers. The parser takes at most 18
digits. Amounts of ten billion coins and more have 19, so the node reports them but does not take
them back (`rpc_amount_iff`).
-/

namespace RadiantCore

/-- `UniValue::VType`. -/
inductive VType
  | VNULL
  | VFALSE
  | VTRUE
  | VOBJ
  | VARR
  | VNUM
  | VSTR
deriving DecidableEq, Repr

/-- `UniValue`, without the members of objects and arrays. -/
structure UniValue where
  typ : VType
  val : List UInt8
deriving DecidableEq, Repr

/-- `JSONRPCError`. -/
structure JSONRPCError where
  code : ℤ
  message : String
deriving DecidableEq, Repr

/-- How an RPC function ends without a value. -/
inductive RpcEnd
  | error (e : JSONRPCError)
  /-- A signed operation overflows. -/
  | overflow
deriving DecidableEq, Repr

/-- `RPC_TYPE_ERROR`. -/
def rpcTypeError : ℤ := -3

/-- `ValueFromAmount`. -/
def valueFromAmount (amount : ℤ) : Except RpcEnd UniValue := do
  let sign := amount < 0
  let nAbs ← signed 63 .overflow (if sign then -amount else amount)
  return ⟨.VNUM, (if sign then ['-'.toUInt8] else []) ++ coinString nAbs⟩

/-- `AmountFromValue`. -/
def amountFromValue (value : UniValue) : Except RpcEnd ℤ := do
  require (value.typ = .VNUM ∨ value.typ = .VSTR)
    (.error ⟨rpcTypeError, "Amount is not a number or string"⟩)
  let amt ← (parseFixedPoint value.val 8).mapError fun
    | .reject => RpcEnd.error ⟨rpcTypeError, "Invalid amount"⟩
    | .overflow => .overflow
  require (moneyRange amt) (.error ⟨rpcTypeError, "Amount out of range"⟩)
  return amt

/-- The value of an amount is read as the amount. -/
def RpcRoundTrips (a : ℤ) : Prop :=
  ∃ value, valueFromAmount a = .ok value ∧ amountFromValue value = .ok a

/-- The number that is written for an amount. -/
def coinNumber (a : ℤ) : JsonNumber where
  minus := false
  whole := ⟨decimal (a / coinValue).toNat, decimal_ne_nil _, fun _ => isDigit_of_mem_decimal⟩
  fraction := some ⟨paddedDecimal 8 (a % coinValue).toNat,
    by simp [paddedDecimal, decimal_ne_nil], fun _ => isDigit_of_mem_paddedDecimal⟩
  exponent := none
  canonical := by
    dsimp only
    by_cases hzero : (a / coinValue).toNat = 0
    · rw [hzero]
      exact Or.inl (by decide)
    · obtain ⟨c, s, hs, -, hc⟩ := exists_decimal_eq_cons hzero
      rw [hs]
      exact Or.inr (by simpa using hc)

section Number

variable {a : ℤ}

theorem coinNumber_render (a : ℤ) : (coinNumber a).render = coinString a := by
  simp [coinNumber, JsonNumber.render, coinString]

theorem length_coinFraction (a : ℤ) : (paddedDecimal 8 (a % coinValue).toNat).length = 8 := by
  have hcoin : coinValue = 100000000 := rfl
  refine length_paddedDecimal (by norm_num) ?_
  rw [hcoin]
  omega

theorem coinNumber_digitsValue (ha : 0 ≤ a) : ((coinNumber a).digitsValue : ℤ) = a := by
  have hcoin : coinValue = 100000000 := rfl
  have hdigits : (coinNumber a).digitsValue =
      (a / coinValue).toNat * 10 ^ 8 + (a % coinValue).toNat := by
    change decimalValue (decimal _ ++ paddedDecimal 8 _) = _
    rw [decimalValue_append, decimalValue_decimal, decimalValue_paddedDecimal, length_coinFraction]
  rw [hdigits, hcoin]
  omega

/-- The number of an amount is the amount in coins. -/
theorem coinNumber_value (ha : 0 ≤ a) : (coinNumber a).value * 10 ^ 8 = a := by
  have hscale : (coinNumber a).scale = -8 := by
    change (0 : ℤ) - (paddedDecimal 8 (a % coinValue).toNat).length = -8
    rw [length_coinFraction]
    norm_num
  have hdigits : ((coinNumber a).digitsValue : ℚ) = a := by exact_mod_cast coinNumber_digitsValue ha
  rw [JsonNumber.value_eq, hscale, hdigits]
  change (1 : ℤ) * (a : ℚ) * 10 ^ (-8 : ℤ) * 10 ^ 8 = a
  rw [mul_assoc, Int.cast_one, one_mul]
  norm_num

theorem length_coinString (hmax : a ≤ maxMoney) :
    (coinNumber a).whole.chars.length + (coinNumber a).fractionChars.length < 2 ^ 31 := by
  have hcoin : coinValue = 100000000 := rfl
  have hmoney : maxMoney = 2100000000000000000 := rfl
  have hwhole : (decimal (a / coinValue).toNat).length ≤ 11 := by
    rw [length_decimal_le_iff (by norm_num), hcoin]
    omega
  change (decimal _).length + (paddedDecimal 8 _).length < 2 ^ 31
  rw [length_coinFraction]
  omega

theorem valueFromAmount_eq (ha : 0 ≤ a) (hmax : a ≤ maxMoney) :
    valueFromAmount a = .ok ⟨.VNUM, coinString a⟩ := by
  have hmoney : maxMoney = 2100000000000000000 := rfl
  have hneg : ¬a < 0 := by omega
  simp only [valueFromAmount, hneg, if_false]
  rw [signed_of_range ⟨by omega, by omega⟩]
  rfl

end Number

/-- The amounts of the money range that are taken back. -/
theorem rpc_amount_iff {a : ℤ} (ha : moneyRange a = true) : RpcRoundTrips a ↔ a < 10 ^ 18 := by
  obtain ⟨hnonneg, hmax⟩ := moneyRange_iff.mp ha
  constructor
  · rintro ⟨value, hvalue, hread⟩
    obtain rfl := Except.ok.inj ((valueFromAmount_eq hnonneg hmax).symm.trans hvalue)
    simp only [amountFromValue, bind_eq_ok_iff, exists_unit_iff, require_eq_ok_iff,
      pure_eq_ok_iff] at hread
    obtain ⟨-, amt, hparse, -, rfl⟩ := hread
    cases hfixed : parseFixedPoint (coinString amt) 8 with
    | error e =>
      rw [hfixed] at hparse
      cases hparse
    | ok v =>
      rw [hfixed] at hparse
      obtain rfl := Except.ok.inj hparse
      rw [← coinNumber_render, JsonNumber.parse_render] at hfixed
      exact (abs_lt.mp (@JsonNumber.parsed_exact _ 8 _ hfixed).2).2
  · intro hlt
    have hparse : parseFixedPoint (coinString a) 8 = .ok a := by
      rw [← coinNumber_render, JsonNumber.parse_render]
      rcases eq_or_ne a 0 with rfl | hne
      · decide +kernel
      · exact @JsonNumber.parsed_of_lt _ 8 _ (length_coinString hmax) (by norm_num)
          (coinNumber_value hnonneg) hne (abs_lt.mpr ⟨by omega, hlt⟩)
    refine ⟨_, valueFromAmount_eq hnonneg hmax, ?_⟩
    simp only [amountFromValue, bind_eq_ok_iff, exists_unit_iff, require_eq_ok_iff, pure_eq_ok_iff]
    exact ⟨Or.inl trivial, a, by rw [hparse]; rfl, ha, rfl⟩

/-- A coin and a half. -/
theorem rpc_amount_coin : moneyRange 150000000 = true ∧ RpcRoundTrips 150000000 :=
  ⟨by decide, (rpc_amount_iff (by decide)).mpr (by decide)⟩

/-- The largest amount is reported, and refused. -/
theorem rpc_amount_max : moneyRange maxMoney = true ∧
    valueFromAmount maxMoney = .ok ⟨.VNUM, "21000000000.00000000".toList.map Char.toUInt8⟩ ∧
    amountFromValue ⟨.VNUM, "21000000000.00000000".toList.map Char.toUInt8⟩ =
      .error (.error ⟨rpcTypeError, "Invalid amount"⟩) ∧
    ¬RpcRoundTrips maxMoney := by
  have hwrite : valueFromAmount maxMoney =
      .ok ⟨.VNUM, "21000000000.00000000".toList.map Char.toUInt8⟩ := by decide +kernel
  have hread : amountFromValue ⟨.VNUM, "21000000000.00000000".toList.map Char.toUInt8⟩ =
      .error (.error ⟨rpcTypeError, "Invalid amount"⟩) := by decide +kernel
  refine ⟨by decide, hwrite, hread, ?_⟩
  rintro ⟨value, hvalue, hamount⟩
  obtain rfl := Except.ok.inj (hwrite.symm.trans hvalue)
  cases hread.symm.trans hamount

end RadiantCore
