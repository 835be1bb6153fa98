import ChomskyForm.CommandLine.Arguments
import ChomskyForm.Conversion
import ChomskyForm.Rendering.Productions
import ChomskyForm.Rendering.Variables

set_option autoImplicit false
set_option relaxedAutoImplicit false

/-!
# Outcomes of the command line

What a command prints and how it ends, as a function of its arguments and of what can be read. The
outputs are printed one after the other, each as soon as its text is there. A text that cannot be
written ends the command, and what has been printed before it stays printed; for everything else
that may go wrong, nothing has been printed yet.

## Main definitions

* `ChomskyForm.CommandLine.Outcome`: exit code, standard output and standard error.
* `ChomskyForm.CommandLine.Output.text?`: the text of an output, which may fail to be written.
* `ChomskyForm.CommandLine.printAll`: the loop that prints the outputs.
* `ChomskyForm.CommandLine.run`: the outcome of a command.
-/

namespace ChomskyForm

namespace CommandLine

/-- The lines of the help text, which is printed on the standard output. -/
def helpLines : List String :=
  ["Usage: cnf-helper [stages] outputs [options] [grammar file]",
    "stages (applied in the given order):",
    "  eps: Eliminate epsilon productions",
    "  unit: Eliminate unit productions",
    "  reach: Remove unreachable variables",
    "  gen: Remove unproductive variables",
    "  bin: Isolate terminals and binarize",
    "  cnf: All of the above, in order",
    "outputs:",
    "  prod: Productions",
    "  vars: Nullable, reachable, productive and unit closure per variable",
    "options:",
    "  -h: Print this help",
    "  -l: Print in LaTeX format",
    "  -j: Print in JSON format",
    "  -t PREFIX: Prefix of variables standing for a terminal (default T)",
    "  -x PREFIX: Prefix of variables splitting long productions (default X)",
    "The grammar is a JSON object with variables, terminals, start and productions."]

/-- Texts as lines, each with its end of line. -/
def asLines (texts : List String) : String := String.join (texts.map (· ++ "\n"))

/-! ## Failures -/

/-- **Reasons for a failure**, in the order in which they can occur: the arguments are looked at
first, then the source is read, then the grammar is made, and at last the outputs are written. -/
inductive CommandError where
  /-- The arguments make no sense. -/
  | usage (error : UsageError)
  /-- The grammar cannot be read. -/
  | unavailable (source : Source)
  /-- The text read gives no grammar. -/
  | failure (failure : Failure)
  /-- An output cannot be written. -/
  | unwritable (error : Json.WriteError)
deriving DecidableEq, Repr

/-- **The text of a reason, without its causes.**

The causes follow the reason in a paragraph of their own, and are left out here: why a source could
not be read, and in what way a text fails to hold a description. The other reasons have no causes,
so for them this is the whole text. -/
def CommandError.message : CommandError → String
  | usage (.unknownOption option) => "unknown option " ++ option
  | usage (.missingValue option) => option ++ " expects a prefix"
  | unavailable .standardInput => "failed to read grammar from stdin"
  | unavailable (.file name) => "failed to read " ++ name
  | failure (.unreadable _) => "malformed grammar"
  | failure (.rejected error) => error.message
  | unwritable error => error.message

/-! ## Outcomes -/

/-- **Outcomes**: what a command leaves behind when it has ended. -/
structure Outcome where
  /-- 0 for success and 1 for failure. -/
  exitCode : Nat
  /-- What is printed on the standard output. -/
  standardOutput : String
  /-- What is printed on the standard error, without the end of the line. -/
  standardError : String
deriving DecidableEq, Repr

/-- **Success**, after something has been printed. Nothing is printed on the standard error then. -/
def Outcome.success (printed : String) : Outcome := ⟨0, printed, ""⟩

/-- **Failure**, after something has been printed. What has been printed on the standard output
stays there, and the reason is printed on the standard error. -/
def Outcome.failed (printed : String) (e : CommandError) : Outcome :=
  ⟨1, printed, "Error: " ++ e.message⟩

/-! ## Outputs -/

/-- **The text of an output** of a grammar in a format. Texts in JSON are written from values,
which may fail; the other formats are put together from names. -/
def Output.text? (g : Grammar) (format : Format) : Output → Except Json.WriteError String
  | productions =>
    match format with
    | .plain => .ok g.listing.plain
    | .latex => .ok g.listing.latex
    | .json => Json.write g.toDescription.value
  | variableTable =>
    match format with
    | .plain => .ok g.variableTable.plain
    | .latex => .ok g.variableTable.latex
    | .json => Json.write g.variableTable.value

/-- **Printing outputs** one after the other, each with the end of a line, after what has been
printed before. The first one that cannot be written ends the command, and no later one is looked
at. -/
def printAll (g : Grammar) (format : Format) (printed : String) : List Output → Outcome
  | [] => .success printed
  | output :: outputs =>
    match output.text? g format with
    | .error e => .failed printed (.unwritable e)
    | .ok text => printAll g format (printed ++ text ++ "\n") outputs

/-! ## Commands -/

/-- **The outcome of a request** when its source holds a text. The stages are all applied before
the first output is printed, so that all outputs are about the same grammar. -/
def Request.outcome (r : Request) (input : String) : Outcome :=
  match Grammar.ofJson input with
  | .error e => .failed "" (.failure e)
  | .ok g =>
    printAll (g.run (r.stages.map (StageWord.toStage r.settings.naming))) r.settings.format ""
      r.outputs

/-- **The outcome of a command**, given what can be read from each source. Only one source is read,
and none at all unless the arguments make a request. -/
def run (args : List String) (read : Source → Option String) : Outcome :=
  match parse args with
  | .error e => .failed "" (.usage e)
  | .ok none => .success (asLines helpLines)
  | .ok (some request) =>
    match read request.source with
    | none => .failed "" (.unavailable request.source)
    | some input => request.outcome input

/-- The source that a command reads, if it reads any. It depends on the arguments alone. -/
def source? (args : List String) : Option Source :=
  match parse args with
  | .ok (some request) => some request.source
  | _ => none

end CommandLine

end ChomskyForm
