import ChomskyForm.Json.Description
import ChomskyForm.Stage.NormalForm

set_option autoImplicit false
set_option relaxedAutoImplicit false

/-!
# From JSON text to JSON text

The conversion of a grammar that is given as JSON text into Chomsky normal form, written as JSON
text again. A failure is written as a JSON object too, be it that the text gives no grammar or that
the result cannot be written; the latter does not happen.

## Main definitions

* `ChomskyForm.Failure`: why a text gives no grammar.
* `ChomskyForm.Grammar.ofJson`: the grammar that a text describes.
* `ChomskyForm.errorJson`: a failure as a JSON object.
* `ChomskyForm.normalFormJson`: the conversion.

## Main results

* `ChomskyForm.normalFormJson_of_ok`: the result for a grammar is always written.
-/

namespace ChomskyForm

/-- **Failures**: why a text gives no grammar. Either it holds no description, or the description
is rejected. -/
inductive Failure where
  /-- The text holds no description. -/
  | unreadable (error : Json.ReadError)
  /-- The description is rejected. -/
  | rejected (error : GrammarError)
deriving DecidableEq, Repr

/-- **What is said of a failure.** For a text that holds no description, `Json.ReadError.message`
tells what of the full text is left out; the text for a rejected description is complete. -/
def Failure.message : Failure → String
  | unreadable error => error.message
  | rejected error => error.message

/-- **The grammar that a JSON text describes.** The text is read as a whole before its declarations
are checked. -/
def Grammar.ofJson (text : String) : Except Failure Grammar :=
  match Description.ofJson text with
  | .error e => .error (.unreadable e)
  | .ok d =>
    match Grammar.ofDescription d with
    | .error e => .error (.rejected e)
    | .ok g => .ok g

/-- **A failure as JSON**: an object with what is said of the failure as its only field. -/
def errorJson (message : String) : String := Json.object [("error", Json.quote message)]

/-- **Conversion.** The normal form of the grammar that a text describes, with the default naming
of new variables, or an object with the reason why there is none. -/
def normalFormJson (text : String) : String :=
  match Grammar.ofJson text with
  | .ok g =>
    match Json.write (g.normalize {}).toDescription.value with
    | .ok written => written
    | .error e => errorJson e.message
  | .error failure => errorJson failure.message

/-- **The conversion of a text that describes a grammar** is the text of the normal form. That
writing it might fail is provided for, but it never does (`Description.write_value`). -/
theorem normalFormJson_of_ok {text : String} {g : Grammar} (hg : Grammar.ofJson text = .ok g) :
    normalFormJson text = (g.normalize {}).toDescription.json := by
  rw [normalFormJson, hg]
  dsimp only
  rw [Description.write_value]

end ChomskyForm
