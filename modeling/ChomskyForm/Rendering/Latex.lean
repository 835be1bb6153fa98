import ChomskyForm.Symbol

set_option autoImplicit false
set_option relaxedAutoImplicit false

/-!
# LaTeX text

Any text can be set in LaTeX once the characters with a meaning of their own are written by
commands. Two hyphens in a row would become a dash, so an empty group is put between them.

## Main definitions

* `ChomskyForm.Latex.escape`: a text for LaTeX.
* `ChomskyForm.Latex.markEpsilon`: a text with the mark for the empty word as a command.
-/

namespace ChomskyForm

namespace Latex

/-- The command or group for one character; a character without a meaning of its own stands for
itself. Letters and digits are among the latter, and so are all characters beyond ASCII. -/
def escapeChar : Char → List Char
  | '&' => "\\&".toList
  | '%' => "\\%".toList
  | '$' => "\\$".toList
  | '#' => "\\#".toList
  | '_' => "\\_".toList
  | '\x7b' => "\\\x7b".toList
  | '\x7d' => "\\\x7d".toList
  | '[' => "\x7b[\x7d".toList
  | ']' => "\x7b]\x7d".toList
  | '~' => "\\textasciitilde\x7b\x7d".toList
  | '^' => "\\textasciicircum\x7b\x7d".toList
  | '<' => "\\textless\x7b\x7d".toList
  | '>' => "\\textgreater\x7b\x7d".toList
  | '!' => "!\x7b\x7d".toList
  | '\\' => "\\textbackslash\x7b\x7d".toList
  | c => [c]

/-- **Escaping**, character by character. A hyphen before a hyphen is followed by an empty
group. -/
def escapeChars : List Char → List Char
  | [] => []
  | c :: rest =>
    (if c = '-' ∧ rest.head? = some '-' then "-\x7b\x7d".toList else escapeChar c) ++
      escapeChars rest

/-- **Escaping** of a text, from its first character to its last. -/
def escape (text : String) : String := String.ofList (escapeChars text.toList)

/-- **The mark as a command.** Every `ε` in a line becomes the command for that letter. It is
applied to lines that have been escaped, so that the command's backslash is not escaped itself. -/
def markEpsilon (line : String) : String :=
  String.ofList (line.toList.flatMap fun c => if c = 'ε' then "\\epsilon".toList else [c])

end Latex

end ChomskyForm
