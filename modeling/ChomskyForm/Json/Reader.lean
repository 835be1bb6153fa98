import ChomskyForm.Json.Lexer
import ChomskyForm.Text.Literal

set_option autoImplicit false
set_option relaxedAutoImplicit false

/-!
# Reading values from JSON tokens

A reader takes a value from the front of a list of tokens and leaves the rest. The tokens are read
once, from front to back, and the first error met is the one reported. An error is either that
the text is not JSON, or that its shape is not the expected one.

## Main definitions

* `ChomskyForm.Json.ReadError`: the errors, and `ReadError.message`, what is said of them.
* `ChomskyForm.Json.Reader`: readers. What a reader leaves is shorter than what it was given.
* `ChomskyForm.Json.Reader.string`, `Reader.array`, `Reader.object`: readers for the kinds of
  values.
* `ChomskyForm.Json.Reader.skip`: the reader for a value that does not matter.
-/

namespace ChomskyForm

namespace Json

/-! ## Errors -/

/-- **What a reader may expect.** The names of these are part of the text of an error. -/
inductive Expected where
  /-- A description of a grammar. -/
  | description
  /-- The naming of new variables. -/
  | naming
  /-- A string. -/
  | string
  /-- An array. -/
  | sequence
  /-- An object. -/
  | map
  /-- A number from 0 to 2⁶⁴ - 1. -/
  | index
deriving DecidableEq, Repr

/-- **What a reader may find instead.** Integers, truth values and strings are shown with their
value, everything else by its kind only. -/
inductive Found where
  | null
  | bool (value : Bool)
  | integer (value : Int)
  | floating
  | string (content : String)
  | sequence
  | map
deriving DecidableEq, Repr

/-- **Errors of reading.** The first one that is met ends the reading. -/
inductive ReadError where
  /-- The text is not JSON. -/
  | malformed
  /-- A value is of another kind than the expected one. -/
  | invalidType (found : Found) (expected : Expected)
  /-- A number is outside the expected range. -/
  | invalidValue (value : Int) (expected : Expected)
  /-- An array that stands for a description is too short. -/
  | invalidLength (length : Nat)
  /-- A field is absent. -/
  | missingField (name : String)
  /-- A field is given twice. -/
  | duplicateField (name : String)
deriving DecidableEq, Repr

/-- The text for what is expected. -/
def Expected.text : Expected → String
  | description => "struct GrammarSpec"
  | naming => "struct CnfOptions"
  | string => "a string"
  | sequence => "a sequence"
  | map => "a map"
  | index => "usize"

/-- The text for what is found. -/
def Found.text : Found → String
  | null => "null"
  | bool true => "boolean `true`"
  | bool false => "boolean `false`"
  | integer value => "integer `" ++ value.repr ++ "`"
  | floating => "floating point `_`"
  | string content => "string " ++ Literal.quote content
  | sequence => "sequence"
  | map => "map"

/-- **What is said of an error**, in so far as it depends on the values that were read.

This is not the whole text. Left out are the line and the column, which stand at the end of it, and
the digits of a number that is not an integer; and of a text that is not JSON it is said only that
it is not, where the full text has a wording of its own for each way in which a text may fail to be
JSON. -/
def ReadError.message : ReadError → String
  | malformed => "malformed JSON"
  | invalidType found expected => "invalid type: " ++ found.text ++ ", expected " ++ expected.text
  | invalidValue value expected =>
    "invalid value: integer `" ++ value.repr ++ "`, expected " ++ expected.text
  | invalidLength length =>
    "invalid length " ++ length.repr ++ ", expected " ++ Expected.description.text ++
      " with 4 elements"
  | missingField name => "missing field `" ++ name ++ "`"
  | duplicateField name => "duplicate field `" ++ name ++ "`"

/-- The value that begins with a token, if one does. A number out of range is no value, and neither
is a string with half of a surrogate pair; both make a text malformed where they are read. -/
def Token.found? : Token → Option Found
  | null => some .null
  | bool value => some (.bool value)
  | number (.integer value) => some (.integer value)
  | number .floating => some .floating
  | string content => some (.string content)
  | openBracket => some .sequence
  | openBrace => some .map
  | _ => none

/-- **The error of a value of the wrong kind.** A token that no value begins with is an error of
its own. -/
def unexpected (expected : Expected) (tokens : List Token) : ReadError :=
  match tokens.head?.bind Token.found? with
  | some found => .invalidType found expected
  | none => .malformed

/-! ## Readers -/

/-- **Readers.** A reader takes a value from the front and leaves fewer tokens than it was given.
That it does is part of its type, so that a reader for many values can go on with what the reader
for one value has left. -/
def Reader (α : Type) : Type :=
  (tokens : List Token) →
    Except ReadError (α × { rest : List Token // rest.length < tokens.length })

namespace Reader

variable {α β σ : Type}

/-- The value read, changed by a function or refused. The tokens left are those that the reader has
left. -/
def check (r : Reader α) (f : α → Except ReadError β) : Reader β := fun tokens =>
  match r tokens with
  | .error e => .error e
  | .ok (a, rest) =>
    match f a with
    | .error e => .error e
    | .ok b => .ok (b, rest)

/-- The value read, changed by a function. -/
def map (f : α → β) (r : Reader α) : Reader β := r.check fun a => .ok (f a)

/-- **Strings.** A string with half of a surrogate pair is not one. -/
def string : Reader String
  | .string content :: rest => .ok (content, ⟨rest, Nat.lt_succ_self _⟩)
  | tokens => .error (unexpected .string tokens)

/-- **Numbers from 0 to 2⁶⁴ - 1.** A negative integer is an integer outside the expected range; a
number with a point or an exponent is of another kind, even if its value is whole. -/
def index : Reader UInt64
  | .number (.integer value) :: rest =>
    if 0 ≤ value then .ok (UInt64.ofNat value.toNat, ⟨rest, Nat.lt_succ_self _⟩)
    else .error (.invalidValue value .index)
  | tokens => .error (unexpected .index tokens)

/-- A value after a colon, as in the member of an object. -/
def afterColon (r : Reader α) : Reader α
  | .colon :: tokens =>
    match r tokens with
    | .error e => .error e
    | .ok (a, ⟨rest, h⟩) => .ok (a, ⟨rest, Nat.lt_succ_of_lt h⟩)
  | _ => .error .malformed

/-- The items of an array after the first one, and its end. A comma has to be followed by an
item. -/
def arrayRest (item : Reader α) : Reader (List α)
  | .closeBracket :: rest => .ok ([], ⟨rest, Nat.lt_succ_self _⟩)
  | .comma :: tokens =>
    match item tokens with
    | .error e => .error e
    | .ok (a, ⟨rest, h⟩) =>
      match arrayRest item rest with
      | .error e => .error e
      | .ok (as, ⟨rest', h'⟩) =>
        .ok (a :: as, ⟨rest', Nat.lt_succ_of_lt (Nat.lt_trans h' h)⟩)
  | _ => .error .malformed
termination_by tokens => tokens.length
decreasing_by exact Nat.lt_succ_of_lt h

/-- **Arrays** of items of one kind. What is not an array is refused by its kind. -/
def array (item : Reader α) : Reader (List α)
  | .openBracket :: .closeBracket :: rest =>
    .ok ([], ⟨rest, Nat.lt_succ_of_lt (Nat.lt_succ_self _)⟩)
  | .openBracket :: tokens =>
    match item tokens with
    | .error e => .error e
    | .ok (a, ⟨rest, h⟩) =>
      match arrayRest item rest with
      | .error e => .error e
      | .ok (as, ⟨rest', h'⟩) =>
        .ok (a :: as, ⟨rest', Nat.lt_succ_of_lt (Nat.lt_trans h' h)⟩)
  | tokens => .error (unexpected .sequence tokens)

/-- The members of an object after the first one, and its end. The reader of a member is given
what was made of the members before it, and the key. -/
def objectRest (member : σ → String → Reader σ) (s : σ) : Reader σ
  | .closeBrace :: rest => .ok (s, ⟨rest, Nat.lt_succ_self _⟩)
  | .comma :: .string key :: tokens =>
    match member s key tokens with
    | .error e => .error e
    | .ok (s', ⟨rest, h⟩) =>
      match objectRest member s' rest with
      | .error e => .error e
      | .ok (s'', ⟨rest', h'⟩) =>
        .ok (s'', ⟨rest', Nat.lt_succ_of_lt (Nat.lt_succ_of_lt (Nat.lt_trans h' h))⟩)
  | _ => .error .malformed
termination_by tokens => tokens.length
decreasing_by exact Nat.lt_succ_of_lt (Nat.lt_succ_of_lt h)

/-- **Objects.** The members are read in the order of the text, beginning with `s`. What to do with
a key is left to the reader of a member, which may refuse it or read past it. -/
def object (expected : Expected) (member : σ → String → Reader σ) (s : σ) : Reader σ
  | .openBrace :: .closeBrace :: rest =>
    .ok (s, ⟨rest, Nat.lt_succ_of_lt (Nat.lt_succ_self _)⟩)
  | .openBrace :: .string key :: tokens =>
    match member s key tokens with
    | .error e => .error e
    | .ok (s', ⟨rest, h⟩) =>
      match objectRest member s' rest with
      | .error e => .error e
      | .ok (s'', ⟨rest', h'⟩) =>
        .ok (s'', ⟨rest', Nat.lt_succ_of_lt (Nat.lt_succ_of_lt (Nat.lt_trans h' h))⟩)
  | .openBrace :: _ => .error .malformed
  | tokens => .error (unexpected expected tokens)

/-! ## Values that do not matter -/

/-- **What may come next** inside a value that is skipped. -/
inductive Awaiting where
  /-- A value. -/
  | value
  /-- The first item of an array, or its end. -/
  | item
  /-- The first key of an object, or its end. -/
  | member
  /-- A key. -/
  | key
  /-- A colon. -/
  | colon
  /-- A comma, or the end of the innermost array or object. -/
  | comma
deriving DecidableEq, Repr

/-- **What is open** around the place where skipping has come to. -/
inductive Frame where
  | array
  | object
deriving DecidableEq, Repr

/-- After a value: either all is closed, which is `none`, or the value has to be followed by
something in what is open. That may be a comma, or the end of the innermost array or object. -/
def closed : List Frame → Option (Awaiting × List Frame)
  | [] => none
  | frames => some (.comma, frames)

/-- A value inside what is open: a scalar, or the beginning of an array or an object. -/
def skipValue (frames : List Frame) : Token → Except ReadError (Option (Awaiting × List Frame))
  | .openBracket => .ok (some (.item, .array :: frames))
  | .openBrace => .ok (some (.member, .object :: frames))
  | .null | .bool _ | .number _ | .string _ | .brokenString => .ok (closed frames)
  | _ => .error .malformed

/-- A key inside an object. Halves of surrogate pairs do no harm in a key that does not matter. -/
def skipKey (frames : List Frame) : Token → Except ReadError (Option (Awaiting × List Frame))
  | .string _ | .brokenString => .ok (some (.colon, frames))
  | _ => .error .malformed

/-- **One token of a value that is skipped.** The result is what may come next and what is open
then, or `none` when the value has come to its end. -/
def skipToken : Awaiting → List Frame → Token → Except ReadError (Option (Awaiting × List Frame))
  | .value, frames, token => skipValue frames token
  | .item, .array :: frames, .closeBracket => .ok (closed frames)
  | .item, frames, token => skipValue frames token
  | .member, .object :: frames, .closeBrace => .ok (closed frames)
  | .member, frames, token => skipKey frames token
  | .key, frames, token => skipKey frames token
  | .colon, frames, .colon => .ok (some (.value, frames))
  | .comma, .array :: frames, .closeBracket => .ok (closed frames)
  | .comma, .object :: frames, .closeBrace => .ok (closed frames)
  | .comma, .array :: frames, .comma => .ok (some (.value, .array :: frames))
  | .comma, .object :: frames, .comma => .ok (some (.key, .object :: frames))
  | _, _, _ => .error .malformed

/-- Skipping up to the end of a value, token by token. Each token is looked at once. -/
def skipFrom (awaiting : Awaiting) (frames : List Frame) : Reader Unit
  | [] => .error .malformed
  | token :: tokens =>
    match skipToken awaiting frames token with
    | .error e => .error e
    | .ok none => .ok ((), ⟨tokens, Nat.lt_succ_self _⟩)
    | .ok (some (awaiting, frames)) =>
      match skipFrom awaiting frames tokens with
      | .error e => .error e
      | .ok (_, ⟨rest, h⟩) => .ok ((), ⟨rest, Nat.lt_succ_of_lt h⟩)

/-- **Any value**, which is read past. Numbers of any size and halves of surrogate pairs do no
harm. -/
def skip : Reader Unit := skipFrom .value []

end Reader

/-! ## Records -/

/-- **A field of a record.** It may be given once; a second one is refused before its value is
looked at. -/
def Reader.field {α σ : Type} (name : String) (present : Option α) (value : Reader α)
    (set : α → σ) : Reader σ := fun tokens =>
  if present.isSome then .error (.duplicateField name)
  else (value.afterColon.map set) tokens

/-- **The `i`-th value of a record that is given as an array**, counted from 0; `none` where the
array ends. -/
def nth? {α : Type} (i : Nat) (value : Reader α) (tokens : List Token) :
    Except ReadError (Option α × List Token) :=
  let read := fun tokens =>
    match value tokens with
    | .error e => .error e
    | .ok (a, rest) => .ok (some a, rest.val)
  match i, tokens with
  | _, .closeBracket :: _ => .ok (none, tokens)
  | 0, tokens => read tokens
  | _ + 1, .comma :: tokens => read tokens
  | _ + 1, _ => .error .malformed

/-- The end of a record that is given as an array. Values beyond the last field are refused. -/
def closeArray : List Token → Except ReadError (List Token)
  | .closeBracket :: rest => .ok rest
  | _ => .error .malformed

/-- **A whole text.** It is cut into tokens first, and nothing may follow the value. -/
def readAll {α : Type} (read : List Token → Except ReadError (α × List Token)) (text : String) :
    Except ReadError α :=
  match read (lex text.toList) with
  | .error e => .error e
  | .ok (a, []) => .ok a
  | .ok (_, _ :: _) => .error .malformed

end Json

end ChomskyForm
