set_option autoImplicit false
set_option relaxedAutoImplicit false

/-!
# Numbers in JSON

A written number is an integer of 64 bits or a floating-point number. Only the kind of a
floating-point number is of interest here, and whether it is too large to be one. The reading of
digits stops where the digits no longer fit into 64 bits; what the number is then compared with is
the product of two rounded factors, the digits read and a power of ten.

## Main definitions

* `ChomskyForm.Json.Numeral`: a number as it is written.
* `ChomskyForm.Json.Number`: what is read from it.
* `ChomskyForm.Json.Numeral.value`: the reading.
-/

namespace ChomskyForm

namespace Json

/-- **Written numbers**, digit by digit. -/
structure Numeral where
  /-- Whether there is a minus sign. -/
  negative : Bool
  /-- The digits before the point. -/
  whole : List Nat
  /-- The digits after the point, if there is one. -/
  fraction : Option (List Nat)
  /-- Whether the exponent is negative, and its digits, if there is one. -/
  exponent : Option (Bool × List Nat)
deriving DecidableEq, Repr

/-- **Numbers.** Of a number that is not an integer only its kind is kept; its value is of no
interest to any reader. -/
inductive Number where
  /-- An integer from -2⁶³ to 2⁶⁴ - 1. -/
  | integer (value : Int)
  /-- A floating-point number. -/
  | floating
  /-- A number too large for any of these. -/
  | outOfRange
deriving DecidableEq, Repr

/-! ## Size of a floating-point number -/

/-- **Rounding to 53 bits.** The nearest number with at most 53 significant bits; a tie goes to
the one whose last bit is even. -/
def round53 (n : Nat) : Nat :=
  let excess := n.log2 + 1 - 53
  let unit := Nat.pow 2 excess
  let quotient := n / unit
  let twice := 2 * (n % unit)
  if twice > unit ∨ twice = unit ∧ quotient % 2 = 1 then (quotient + 1) * unit
  else quotient * unit

/-- **Range.** Whether `significand` times ten to the `exponent` is a floating-point number. From
2¹⁰²⁴ - 2⁹⁷⁰ on, a product would be rounded to infinity. -/
def isInRange (significand : Nat) (exponent : Int) : Bool :=
  if exponent < 0 ∨ significand = 0 then true
  else
    exponent ≤ 308 &&
      round53 significand * round53 (Nat.pow 10 exponent.toNat) <
        Nat.pow 2 1024 - Nat.pow 2 970

/-! ## Reading -/

/-- The number that digits stand for, the first digit being the most significant. -/
def ofDigits (digits : List Nat) : Nat := digits.foldl (fun n d => n * 10 + d) 0

/-- The digits before the point, as far as they fit into 64 bits, and how many are left. Once a
digit does not fit, none of the later ones is taken, even if it would fit by itself. -/
def takeWhole (significand : Nat) : List Nat → Nat × Nat
  | [] => (significand, 0)
  | d :: digits =>
    if significand * 10 + d < UInt64.size then takeWhole (significand * 10 + d) digits
    else (significand, digits.length + 1)

/-- The digits after the point appended, as far as they fit into 64 bits, and how many did. -/
def takeFraction (significand : Nat) : List Nat → Nat × Nat
  | [] => (significand, 0)
  | d :: digits =>
    if significand * 10 + d < UInt64.size then
      let (significand, taken) := takeFraction (significand * 10 + d) digits
      (significand, taken + 1)
    else (significand, 0)

/-- **The integer of a significand.** A negative one below -2⁶³, and a negative zero, are
floating-point numbers. -/
def integerValue (negative : Bool) (significand : Nat) : Number :=
  if !negative then .integer significand
  else if significand = 0 ∨ Nat.pow 2 63 < significand then .floating
  else .integer (-significand)

/-- **Reading of a number.** An exponent of more than 31 bits is not looked at further: it makes
any number but zero too large, or any number zero. -/
def Numeral.value (n : Numeral) : Number :=
  let (significand, dropped) := takeWhole 0 n.whole
  if n.fraction.isNone ∧ n.exponent.isNone ∧ dropped = 0 then integerValue n.negative significand
  else
    let (significand, taken) := takeFraction significand (n.fraction.getD [])
    let (negativeExponent, digits) := n.exponent.getD (false, [])
    let size := ofDigits digits
    let exponent : Int := if negativeExponent then -size else size
    let inRange :=
      if size < Nat.pow 2 31 then isInRange significand (dropped - taken + exponent)
      else significand = 0 || negativeExponent
    if inRange then .floating else .outOfRange

end Json

end ChomskyForm
