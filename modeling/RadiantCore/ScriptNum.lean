import RadiantCore.ExceptLoop
import RadiantCore.ScriptError

/-!
# Script numbers

`CScriptNum` of `script/script.h` : signed 64-bit numbers other than the least one, stored as
byte strings in little-endian order with a sign bit in the last byte. A value is an integer
here ; the constructor from bytes bounds it (`fromBytes`) and the operations that could
leave the range return `none` (`safeAdd` and its companions).
-/

namespace RadiantCore

namespace CScriptNum

/-- `CScriptNum::IsMinimallyEncoded`. -/
def isMinimallyEncoded (vch : List UInt8) (maxIntegerSize : ℕ) : Bool :=
  vch.length ≤ maxIntegerSize &&
    match vch.reverse with
    | [] => true
    | last :: rest => last &&& 0x7f ≠ 0 || rest.head?.any fun b => b &&& 0x80 ≠ 0

/-- `CScriptNum::MinimallyEncode`, the encoding it leaves. The bytes are looked at from the
last, most significant one. -/
def minimallyEncode (data : List UInt8) : List UInt8 :=
  match data.reverse with
  | [] => []
  | last :: rest =>
    if last &&& 0x7f ≠ 0 then data
    else if rest.head?.any fun b => b &&& 0x80 ≠ 0 then data
    else
      match rest.dropWhile (· = 0) with
      | [] => []
      | b :: more =>
        if b &&& 0x80 ≠ 0 then (last :: b :: more).reverse else ((b ||| last) :: more).reverse

/-- `CScriptNum::set_vch`. -/
def setVch (vch : List UInt8) : ℤ :=
  match vch.getLast? with
  | none => 0
  | some last =>
    if last &&& 0x80 ≠ 0 then -((readLE vch - 0x80 * 256 ^ (vch.length - 1) : ℕ) : ℤ)
    else readLE vch

/-- `CScriptNum::fromBytes`. -/
def fromBytes (vch : List UInt8) (fRequireMinimal : Bool) (maxIntegerSize : ℕ) :
    Except ScriptFailure ℤ := do
  require (maxIntegerSize ≤ 8) (.exception "maxIntegerSize cannot be greater than 8")
  require (vch.length ≤ maxIntegerSize) (.exception "script number overflow")
  require (fRequireMinimal → isMinimallyEncoded vch maxIntegerSize)
    (.exception "non-minimally encoded script number")
  return setVch vch

/-- The bytes of an absolute value, least significant first, at most `fuel` of them. -/
def absBytes : ℕ → ℕ → List UInt8
  | 0, _ => []
  | fuel + 1, absvalue =>
    if absvalue = 0 then [] else UInt8.ofNat absvalue :: absBytes fuel (absvalue / 256)

/-- `CScriptNum::serialize`, of a 64-bit value. -/
def serialize (value : ℤ) : List UInt8 :=
  match (absBytes 8 value.natAbs).reverse with
  | [] => []
  | last :: rest =>
    if last &&& 0x80 ≠ 0 then ((if value < 0 then 0x80 else 0) :: last :: rest).reverse
    else if value < 0 then ((last ||| 0x80) :: rest).reverse
    else (last :: rest).reverse

/-- `ScriptIntBase::valid64BitRange`, of a 64-bit value. -/
def valid64BitRange (x : ℤ) : Bool := x ≠ -2 ^ 63

/-- `CScriptNum::fromInt(x).value()`, which throws for the one value out of range. -/
def fromInt (x : ℤ) : Except ScriptFailure ℤ := do
  require (valid64BitRange x) (.exception "bad optional access")
  return x

/-- The result of an operation, unless it overflows or is the least 64-bit value. -/
def checkRange (x : ℤ) : Option ℤ := if -2 ^ 63 < x ∧ x < 2 ^ 63 then some x else none

def safeAdd (a b : ℤ) : Option ℤ := checkRange (a + b)

def safeSub (a b : ℤ) : Option ℤ := checkRange (a - b)

def safeMul (a b : ℤ) : Option ℤ := checkRange (a * b)

/-- `operator-`. -/
def neg (a : ℤ) : ℤ := if valid64BitRange a then -a else a

/-- `operator/`, which rounds towards zero. -/
def div (a b : ℤ) : ℤ := if b = -1 ∧ ¬ valid64BitRange a then a else a.tdiv b

/-- `operator%`, with the sign of the dividend. -/
def mod (a b : ℤ) : ℤ := if b = -1 ∧ ¬ valid64BitRange a then 0 else a.tmod b

end CScriptNum

end RadiantCore
