import ChomskyForm.Grammar.Description
import ChomskyForm.Json.Reader
import ChomskyForm.Json.Writer

set_option autoImplicit false
set_option relaxedAutoImplicit false

/-!
# Descriptions of grammars in JSON

A description is an object with the fields `variables`, `terminals`, `start` and `productions`,
in any order and possibly among others, or the array of their values in this order. Sets are
arrays, in which repetitions do not matter; productions are an object, in which the last of
several members with one key counts.

## Main definitions

* `ChomskyForm.Description.ofJson`: the description that a text holds.
* `ChomskyForm.Description.json`: the text of a description.
* `ChomskyForm.Description.value`: a description as a value to be written.

## Main results

* `ChomskyForm.Description.write_value`: writing a description does not fail.
-/

namespace ChomskyForm

namespace Json

/-- A set of names, given as an array in any order and with repetitions. -/
def readNames : Reader (SortedSet Name) := (Reader.array Reader.string).map SortedSet.ofList

/-- The right-hand sides of one left-hand side, given as an array of arrays of names. -/
def readRights : Reader (SortedSet (List Name)) :=
  (Reader.array (Reader.array Reader.string)).map SortedSet.ofList

/-- Productions, by left-hand side. Of several members with one key the last one counts; nothing is
said of the others. -/
def readProductions : Reader (SortedMap Name (SortedSet (List Name))) :=
  Reader.object .map
    (fun productions left => (readRights.afterColon).map fun rights =>
      productions.insert left rights) ∅

/-- **The fields of a description** that have been read so far. -/
structure DescriptionFields where
  /-- The variables. -/
  nonterminals : Option (SortedSet Name) := none
  /-- The terminals. -/
  terminals : Option (SortedSet Name) := none
  /-- The start symbol. -/
  start : Option Name := none
  /-- The productions. -/
  productions : Option (SortedMap Name (SortedSet (List Name))) := none

namespace DescriptionFields

/-- A member of the object. One with an unknown key does not matter, whatever its value is. -/
def member (d : DescriptionFields) (key : String) : Reader DescriptionFields :=
  match key with
  | "variables" =>
    Reader.field key d.nonterminals readNames fun names => { d with nonterminals := some names }
  | "terminals" =>
    Reader.field key d.terminals readNames fun names => { d with terminals := some names }
  | "start" => Reader.field key d.start Reader.string fun name => { d with start := some name }
  | "productions" =>
    Reader.field key d.productions readProductions fun productions =>
      { d with productions := some productions }
  | _ => Reader.skip.afterColon.map fun _ => d

/-- **The description with these fields**, or the first missing one, in the order of the fields and
not in that of the text. -/
def toDescription (d : DescriptionFields) : Except ReadError Description :=
  match d.nonterminals, d.terminals, d.start, d.productions with
  | none, _, _, _ => .error (.missingField "variables")
  | _, none, _, _ => .error (.missingField "terminals")
  | _, _, none, _ => .error (.missingField "start")
  | _, _, _, none => .error (.missingField "productions")
  | some nonterminals, some terminals, some start, some productions =>
    .ok ⟨nonterminals, terminals, start, productions⟩

end DescriptionFields

/-- The value at position `i` of a description that is given as an array. Where the array ends
before it, the error tells how many values there are. -/
def requiredValue {α : Type} (i : Nat) (value : Reader α) (tokens : List Token) :
    Except ReadError (α × List Token) :=
  match nth? i value tokens with
  | .error e => .error e
  | .ok (none, _) => .error (.invalidLength i)
  | .ok (some a, rest) => .ok (a, rest)

/-- A description that is given as an array, after the opening bracket. -/
def readDescriptionValues (tokens : List Token) : Except ReadError (Description × List Token) := do
  let (nonterminals, tokens) ← requiredValue 0 readNames tokens
  let (terminals, tokens) ← requiredValue 1 readNames tokens
  let (start, tokens) ← requiredValue 2 Reader.string tokens
  let (productions, tokens) ← requiredValue 3 readProductions tokens
  let rest ← closeArray tokens
  return (⟨nonterminals, terminals, start, productions⟩, rest)

/-- **A description** at the front of a list of tokens, and what follows it. What does not begin
with a bracket is read as an object, and refused as such. -/
def readDescription : List Token → Except ReadError (Description × List Token)
  | .openBracket :: tokens => readDescriptionValues tokens
  | tokens =>
    match ((Reader.object .description DescriptionFields.member {}).check
      DescriptionFields.toDescription) tokens with
    | .error e => .error e
    | .ok (d, rest) => .ok (d, rest.val)

end Json

namespace Description

/-- **Reading.** The description that a JSON text holds. Whether its declarations fit together is
not asked here. -/
def ofJson (text : String) : Except Json.ReadError Description :=
  Json.readAll Json.readDescription text

/-- **The text of a description.** The fields in their order, all sets in ascending order and no
blanks, so that equal descriptions have equal texts. -/
def json (d : Description) : String :=
  let names := fun (s : List Name) => Json.array (s.map Json.quote)
  Json.object [("variables", names d.nonterminals.toList), ("terminals", names d.terminals.toList),
    ("start", Json.quote d.start),
    ("productions", Json.object (d.productions.toList.map fun entry =>
      (entry.1, Json.array (entry.2.toList.map names))))]

/-- **A description as a value.** Sets are rows in ascending order, and productions are an object
with a member for each left-hand side. -/
def value (d : Description) : Json.Value :=
  let names := fun (s : List Name) => Json.Value.array (s.map .string)
  .object [(.string "variables", names d.nonterminals.toList),
    (.string "terminals", names d.terminals.toList), (.string "start", .string d.start),
    (.string "productions", .object (d.productions.toList.map fun entry =>
      (.string entry.1, .array (entry.2.toList.map names))))]

/-- **Writing a description** does not fail, since all keys are texts: the names of the fields, and
the left-hand sides of the productions. What is written is the text of the description.

**Proof sketch.** A row of names is written because names are (`write_array`), and so is the row of
right-hand sides of each left-hand side. The productions are an object with texts as keys
(`write_object`), and the four fields are put in front of each other (`writeMembers_cons`). -/
theorem write_value (d : Description) : Json.write d.value = .ok d.json := by
  have hnames : ∀ names : List Name,
      Json.write (.array (names.map .string)) = .ok (Json.array (names.map Json.quote)) :=
    fun _ => Json.write_array fun _ _ => rfl
  have hproductions := Json.write_object (l := d.productions.toList) Prod.fst fun entry _ =>
    Json.write_array (l := entry.2.toList) fun right _ => hnames right
  rw [value, Json.write, Json.writeMembers_cons (hnames _) (Json.writeMembers_cons (hnames _)
    (Json.writeMembers_cons rfl (Json.writeMembers_cons hproductions rfl)))]
  rfl

end Description

end ChomskyForm
