set_option autoImplicit false
set_option relaxedAutoImplicit false

/-!
# Writing JSON

Compact JSON text: no blanks between its parts, the fields of an object in a given order, and in
strings no escape that is not needed.

Whatever is to be written is handed over as a value first. The keys of an object are values too, but
only some of them can be keys in JSON, so that writing may fail.

## Main definitions

* `ChomskyForm.Json.quote`: a text as a JSON string.
* `ChomskyForm.Json.array`, `ChomskyForm.Json.object`: arrays and objects of parts that have been
  written already.
* `ChomskyForm.Json.Value`: the values that are handed over.
* `ChomskyForm.Json.write`: the text of a value, if it has one.

## Main results

* `ChomskyForm.Json.write_array`: a row is written if each of its items is.
* `ChomskyForm.Json.write_object`: an object is written if its keys are texts and its values are
  written.
-/

namespace ChomskyForm

/-- **The word for a truth value**, in JSON and elsewhere. -/
def truthText (b : Bool) : String := if b then "true" else "false"

namespace Json

/-- A digit of base 16, in lower case. -/
def hexDigit (n : Nat) : Char :=
  if n < 10 then Char.ofNat (48 + n) else Char.ofNat (87 + n)

/-- **Escapes.** A quotation mark, a backslash and the characters below the blank are escaped, by
a short form if there is one; every other character stands for itself. -/
def escapeChar (c : Char) : List Char :=
  if c = '"' then ['\\', '"']
  else if c = '\\' then ['\\', '\\']
  else if c = '\x08' then ['\\', 'b']
  else if c = '\x0c' then ['\\', 'f']
  else if c = '\n' then ['\\', 'n']
  else if c = '\r' then ['\\', 'r']
  else if c = '\t' then ['\\', 't']
  else if c.toNat < 32 then
    ['\\', 'u', '0', '0', hexDigit (c.toNat / 16), hexDigit (c.toNat % 16)]
  else [c]

/-- **Strings**: a text between quotation marks, with its escapes. -/
def quote (text : String) : String :=
  String.ofList ('"' :: text.toList.flatMap escapeChar ++ ['"'])

/-- **Arrays** of parts that have been written already, with commas between them. -/
def array (items : List String) : String := "[" ++ ",".intercalate items ++ "]"

/-- **Objects**, with their fields in the given order. -/
def object (fields : List (String × String)) : String :=
  "\x7b" ++ ",".intercalate (fields.map fun field => quote field.1 ++ ":" ++ field.2) ++ "\x7d"

/-! ## Values -/

/-- **Values** that are handed over to be written. Numbers and null values are left out, since
nothing that is written here contains them. -/
inductive Value where
  /-- A truth value. -/
  | bool (b : Bool)
  /-- A text. -/
  | string (text : String)
  /-- A row of values. -/
  | array (items : List Value)
  /-- Members with a key and a value, in their order. The keys may be any values. -/
  | object (members : List (Value × Value))

/-- **Reasons why a value cannot be written.** -/
inductive WriteError where
  /-- The key of a member is not a text. -/
  | keyNotText
deriving DecidableEq, Repr

/-- **The text of a reason** why a value cannot be written. -/
def WriteError.message : WriteError → String
  | keyNotText => "key must be a string"

/-- **Keys.** A text is a key, and so is the word for a truth value; a row or an object is none. -/
def writeKey : Value → Except WriteError String
  | .string text => .ok (quote text)
  | .bool b => .ok (quote (truthText b))
  | .array _ => .error .keyNotText
  | .object _ => .error .keyNotText

mutual

/-- **Writing a value.** It fails at the first key that is none, wherever in the value it is. -/
def write : Value → Except WriteError String
  | .bool b => .ok (truthText b)
  | .string text => .ok (quote text)
  | .array items => do return array (← writeItems items)
  | .object members => do return "\x7b" ++ ",".intercalate (← writeMembers members) ++ "\x7d"

/-- The texts of the items of a row, in their order. -/
def writeItems : List Value → Except WriteError (List String)
  | [] => .ok []
  | item :: items => do
    let text ← write item
    return text :: (← writeItems items)

/-- The texts of the members of an object, in their order. -/
def writeMembers : List (Value × Value) → Except WriteError (List String)
  | [] => .ok []
  | (key, value) :: members => do
    let keyText ← writeKey key
    let text ← write value
    return (keyText ++ ":" ++ text) :: (← writeMembers members)

end

/-! ## What can be written -/

/-- **A member with a text as its key** is written if its value is. -/
theorem writeMembers_cons {key text : String} {value : Value} {members : List (Value × Value)}
    {texts : List String} (hvalue : write value = .ok text)
    (hmembers : writeMembers members = .ok texts) :
    writeMembers ((.string key, value) :: members) = .ok ((quote key ++ ":" ++ text) :: texts) := by
  rw [writeMembers, writeKey, hvalue, hmembers]
  rfl

section Written

variable {α : Type} {l : List α} {value : α → Value} {text : α → String}

/-- Items are written one after the other, so that no item fails if none fails by itself. -/
theorem writeItems_map (h : ∀ a ∈ l, write (value a) = .ok (text a)) :
    writeItems (l.map value) = .ok (l.map text) := by
  induction l with
  | nil => rfl
  | cons a l ih =>
    have hrest := ih fun b hb => h b (List.mem_cons_of_mem a hb)
    rw [List.map_cons, writeItems, h a List.mem_cons_self, hrest]
    rfl

/-- **A row is written** if each of its items is.

The items come from a list of anything, as the names of a set or the rows of a table do, and `text`
tells how each of them is written by itself. -/
theorem write_array (h : ∀ a ∈ l, write (value a) = .ok (text a)) :
    write (.array (l.map value)) = .ok (array (l.map text)) := by
  rw [write, writeItems_map h]
  rfl

/-- **An object is written** if its keys are texts and its values are written.

No other condition is needed: the same key may stand there twice, and any text may be a key. -/
theorem write_object (key : α → String) (h : ∀ a ∈ l, write (value a) = .ok (text a)) :
    write (.object (l.map fun a => (.string (key a), value a))) =
      .ok (object (l.map fun a => (key a, text a))) := by
  have hmembers : writeMembers (l.map fun a => (.string (key a), value a)) =
      .ok (l.map fun a => quote (key a) ++ ":" ++ text a) := by
    induction l with
    | nil => rfl
    | cons a l ih =>
      exact writeMembers_cons (h a List.mem_cons_self)
        (ih fun b hb => h b (List.mem_cons_of_mem a hb))
  rw [write, hmembers, object, List.map_map]
  rfl

end Written

/-- A row is not a key, so an object with such a key is not written. -/
example : write (.object [(.array [], .bool true)]) = .error .keyNotText := rfl

end Json

end ChomskyForm
