import ChomskyForm.Json.Reader
import ChomskyForm.Stage.Binary

set_option autoImplicit false
set_option relaxedAutoImplicit false

/-!
# The naming of new variables in JSON

A naming is an object with the fields `terminal_prefix`, `chain_prefix` and `first_index`, any of
which may be absent and all of which may stand among others, or an array of up to three values
in this order. What is not given has its default.

## Main definitions

* `ChomskyForm.Naming.ofJson`: the naming that a text holds.
-/

namespace ChomskyForm

namespace Json

/-- **The fields of a naming** that have been read. Which ones are present has to be known, both to
fill in defaults and to notice a field that is given twice. -/
structure NamingFields where
  /-- The stem for terminals. -/
  terminalStem : Option Name := none
  /-- The stem for chains. -/
  chainStem : Option Name := none
  /-- The first number. -/
  firstIndex : Option UInt64 := none

namespace NamingFields

/-- A member of the object. One with an unknown key does not matter, whatever its value is. -/
def member (n : NamingFields) (key : String) : Reader NamingFields :=
  match key with
  | "terminal_prefix" =>
    Reader.field key n.terminalStem Reader.string fun stem => { n with terminalStem := some stem }
  | "chain_prefix" =>
    Reader.field key n.chainStem Reader.string fun stem => { n with chainStem := some stem }
  | "first_index" =>
    Reader.field key n.firstIndex Reader.index fun index => { n with firstIndex := some index }
  | _ => Reader.skip.afterColon.map fun _ => n

/-- **The naming with these fields**, and defaults for the others. Unlike a description, a naming
never lacks a field. -/
def toNaming (n : NamingFields) : Naming :=
  let default : Naming := {}
  { terminalStem := n.terminalStem.getD default.terminalStem
    chainStem := n.chainStem.getD default.chainStem
    firstIndex := n.firstIndex.getD default.firstIndex }

end NamingFields

/-- A naming that is given as an array, after the opening bracket. The array may end after any of
its values. -/
def readNamingValues (tokens : List Token) : Except ReadError (Naming × List Token) := do
  let (terminalStem, tokens) ← nth? 0 Reader.string tokens
  let (chainStem, tokens) ← nth? 1 Reader.string tokens
  let (firstIndex, tokens) ← nth? 2 Reader.index tokens
  let rest ← closeArray tokens
  return (NamingFields.toNaming ⟨terminalStem, chainStem, firstIndex⟩, rest)

/-- **A naming** at the front of a list of tokens, and what follows it. What does not begin with a
bracket is read as an object, and refused as such. -/
def readNaming : List Token → Except ReadError (Naming × List Token)
  | .openBracket :: tokens => readNamingValues tokens
  | tokens =>
    match ((Reader.object .naming NamingFields.member {}).map NamingFields.toNaming) tokens with
    | .error e => .error e
    | .ok (n, rest) => .ok (n, rest.val)

end Json

/-- **Reading.** The naming that a JSON text holds. -/
def Naming.ofJson (text : String) : Except Json.ReadError Naming :=
  Json.readAll Json.readNaming text

end ChomskyForm
