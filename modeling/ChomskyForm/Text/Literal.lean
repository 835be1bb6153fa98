import ChomskyForm.Json.Writer
import ChomskyForm.Text.Invisible

set_option autoImplicit false
set_option relaxedAutoImplicit false

/-!
# Text literals for readers

A text between quotation marks as it is shown in a message: every character that cannot be seen
as it is has an escape, so that the literal tells any two texts apart.

## Main definitions

* `ChomskyForm.Literal.quote`: the literal of a text.
-/

namespace ChomskyForm

namespace Literal

/-- A number in base 16, without leading zeros and in lower case. -/
def hexDigits (n : Nat) : List Char :=
  if n < 16 then [Json.hexDigit n] else hexDigits (n / 16) ++ [Json.hexDigit (n % 16)]

/-- **Escapes.** Short ones for the end of a string and the usual controls, the code point in
base 16 for other characters without a sign of their own; every other character stands for
itself. -/
def escapeChar (c : Char) : List Char :=
  if c = '\x00' then ['\\', '0']
  else if c = '\t' then ['\\', 't']
  else if c = '\r' then ['\\', 'r']
  else if c = '\n' then ['\\', 'n']
  else if c = '\\' then ['\\', '\\']
  else if c = '"' then ['\\', '"']
  else if isInvisible c then '\\' :: 'u' :: '\x7b' :: hexDigits c.toNat ++ ['\x7d']
  else [c]

/-- **The literal of a text**, between quotation marks. Unlike a string in JSON it escapes every
character that cannot be seen as it is. -/
def quote (text : String) : String :=
  String.ofList ('"' :: text.toList.flatMap escapeChar ++ ['"'])

end Literal

end ChomskyForm
