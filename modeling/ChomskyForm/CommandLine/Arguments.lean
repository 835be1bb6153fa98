import ChomskyForm.Stage.NormalForm

set_option autoImplicit false
set_option relaxedAutoImplicit false

/-!
# Arguments of the command line

A command consists of stages, at least one output, options and at most one grammar file, in this
order. Stages and outputs are words of their own; whatever begins with a hyphen after them is an
option, and an option that needs a value takes the next argument, whatever it is.

## Main definitions

* `ChomskyForm.CommandLine.Request`: what a command asks for.
* `ChomskyForm.CommandLine.parse`: the request of a list of arguments, or a call for help.
-/

namespace ChomskyForm

namespace CommandLine

/-! ## Words -/

/-- **Stages** as they are written. Unlike a stage itself, a word does not yet say how new
variables are named: that is decided by options, which come later. -/
inductive StageWord where
  | eps
  | unit
  | reach
  | gen
  | bin
  | cnf
deriving DecidableEq, Repr

/-- The stage that a word stands for. Words are compared as they are, in lower case. -/
def StageWord.ofText? : String → Option StageWord
  | "eps" => some eps
  | "unit" => some unit
  | "reach" => some reach
  | "gen" => some gen
  | "bin" => some bin
  | "cnf" => some cnf
  | _ => none

/-- The stage, given how new variables are named. One naming serves all stages of a command. -/
def StageWord.toStage (naming : Naming) : StageWord → Stage
  | eps => .eliminateEpsilon
  | unit => .eliminateUnits
  | reach => .pruneUnreachable
  | gen => .pruneUnproductive
  | bin => .binarize naming
  | cnf => .normalize naming

/-- **Outputs.** -/
inductive Output where
  /-- The productions. -/
  | productions
  /-- The table of variables. -/
  | variableTable
deriving DecidableEq, Repr

/-- The output that a word stands for. -/
def Output.ofText? : String → Option Output
  | "prod" => some .productions
  | "vars" => some .variableTable
  | _ => none

/-- **The words at the beginning** of a list of arguments, and what follows them. It stops at the
first argument that is no such word, even if there are more of them later. -/
def takeWords {α : Type} (word? : String → Option α) : List String → List α × List String
  | [] => ([], [])
  | arg :: args =>
    match word? arg with
    | some a =>
      let (words, rest) := takeWords word? args
      (a :: words, rest)
    | none => ([], arg :: args)

/-! ## Options -/

/-- **Formats** of an output. One format serves all outputs of a command. -/
inductive Format where
  | plain
  | latex
  | json
deriving DecidableEq, Repr

/-- **What options decide.** -/
structure Settings where
  /-- The format of all outputs. -/
  format : Format := .plain
  /-- How new variables are named. -/
  naming : Naming := {}
deriving DecidableEq, Repr

/-- **Errors of use.** Both are about options; everything else that may be wrong with a list of
arguments is answered by the help text. -/
inductive UsageError where
  /-- There is no such option. -/
  | unknownOption (option : String)
  /-- The option is the last argument and needs a value. -/
  | missingValue (option : String)
deriving DecidableEq, Repr

/-- Whether an argument is an option, which is a matter of its first character only. A single
hyphen is an option too. -/
def isOption (arg : String) : Bool := arg.toList.head? = some '-'

/-- **Options.** The settings after the options at the beginning of a list of arguments, and what
follows them; `none` if one of them asks for help. A later option overrides an earlier one. The
reading stops at the first option that is wrong or asks for help, so that no later one has any
effect. -/
def readOptions (settings : Settings) :
    List String → Except UsageError (Option (Settings × List String))
  | [] => .ok (some (settings, []))
  | arg :: args =>
    if !isOption arg then .ok (some (settings, arg :: args))
    else if arg = "-h" ∨ arg = "--help" then .ok none
    else if arg = "-l" then readOptions { settings with format := .latex } args
    else if arg = "-j" then readOptions { settings with format := .json } args
    else if arg = "-t" ∨ arg = "-x" then
      match args with
      | [] => .error (.missingValue arg)
      | stem :: args =>
        let naming := settings.naming
        let naming :=
          if arg = "-t" then { naming with terminalStem := stem }
          else { naming with chainStem := stem }
        readOptions { settings with naming := naming } args
    else .error (.unknownOption arg)

/-! ## Commands -/

/-- **Where the grammar comes from.** A file is named by the argument as it is. -/
inductive Source where
  /-- The standard input. -/
  | standardInput
  /-- A file. -/
  | file (name : String)
deriving DecidableEq, Repr

/-- **Requests.** What is left of a list of arguments that makes sense. -/
structure Request where
  /-- The stages, in the order in which they are applied. -/
  stages : List StageWord
  /-- The outputs, in the order in which they are printed. -/
  outputs : List Output
  /-- What the options decided. -/
  settings : Settings
  /-- Where the grammar comes from. -/
  source : Source
deriving DecidableEq, Repr

/-- **Arguments.** The request that they make; `none` stands for a call for help, which is also the
answer to arguments without an output or with more than one file. Options are read before the
outputs are looked at, so that a wrong option is reported even if there is no output. -/
def parse (args : List String) : Except UsageError (Option Request) :=
  let (stages, args) := takeWords StageWord.ofText? args
  let (outputs, args) := takeWords Output.ofText? args
  match readOptions {} args with
  | .error e => .error e
  | .ok none => .ok none
  | .ok (some (settings, args)) =>
    if outputs.isEmpty then .ok none
    else
      match args with
      | [] => .ok (some ⟨stages, outputs, settings, .standardInput⟩)
      | [name] => .ok (some ⟨stages, outputs, settings, .file name⟩)
      | _ => .ok none

end CommandLine

end ChomskyForm
