import Mathlib.Data.Rat.Defs
import RadiantCore.Decimal

/-!
# Numbers of JSON

The grammar of a number : an optional minus sign, an integer part without leading zeros, an optional
fraction and an optional exponent. A number is its parts, each with the proof that it has the form
the grammar asks for. `JsonNumber.render` is the string of a number and `JsonNumber.value` the
rational number it denotes.
-/

namespace RadiantCore

/-- A string of digits that is not empty. -/
structure Digits where
  chars : List UInt8
  ne_nil : chars ≠ []
  digit : ∀ c ∈ chars, isDigit c = true

/-- The sign of an exponent. -/
inductive ExponentSign
  | none
  | plus
  | minus

def ExponentSign.render : ExponentSign → List UInt8
  | none => []
  | plus => ['+'.toUInt8]
  | minus => ['-'.toUInt8]

/-- An exponent. -/
structure JsonExponent where
  letter : UInt8
  sign : ExponentSign
  digits : Digits
  letter_eq : letter = 'e'.toUInt8 ∨ letter = 'E'.toUInt8

namespace JsonExponent

def render (e : JsonExponent) : List UInt8 := e.letter :: (e.sign.render ++ e.digits.chars)

/-- The power of ten. -/
def value (e : JsonExponent) : ℤ :=
  match e.sign with
  | .minus => -decimalValue e.digits.chars
  | _ => decimalValue e.digits.chars

end JsonExponent

/-- A number. -/
structure JsonNumber where
  minus : Bool
  whole : Digits
  fraction : Option Digits
  exponent : Option JsonExponent
  canonical : whole.chars = ['0'.toUInt8] ∨ whole.chars.head? ≠ some '0'.toUInt8

namespace JsonNumber

/-- The digits after the point. -/
def fractionChars (n : JsonNumber) : List UInt8 := (n.fraction.map Digits.chars).getD []

/-- The string of a number. -/
def render (n : JsonNumber) : List UInt8 :=
  (if n.minus then ['-'.toUInt8] else []) ++ n.whole.chars ++
    (n.fraction.map fun f => '.'.toUInt8 :: f.chars).getD [] ++
    (n.exponent.map JsonExponent.render).getD []

/-- The digits of a number as an integer. -/
def digitsValue (n : JsonNumber) : ℕ := decimalValue (n.whole.chars ++ n.fractionChars)

/-- The power of ten by which the digits are scaled. -/
def scale (n : JsonNumber) : ℤ :=
  (n.exponent.map JsonExponent.value).getD 0 - n.fractionChars.length

/-- The number. -/
def value (n : JsonNumber) : ℚ := (if n.minus then -1 else 1) * n.digitsValue * 10 ^ n.scale

end JsonNumber

end RadiantCore
