import ChomskyForm.CommandLine.Outcome

set_option autoImplicit false
set_option relaxedAutoImplicit false

/-!
# The program

Reads the grammar that the command asks for, and carries out the outcome of the command.
-/

open ChomskyForm.CommandLine

/-- All bytes of the standard input as a text, if they are one. They are read to the end before
anything is made of them. -/
def readStandardInput : IO (Option String) := do
  let bytes ← (← IO.getStdin).readBinToEnd
  return String.fromUTF8? bytes

/-- The content of a file as a text, if there is such a file and its bytes are a text. -/
def readFile (name : String) : IO (Option String) := do
  try
    return String.fromUTF8? (← IO.FS.readBinFile name)
  catch _ =>
    return none

/-- **The program.** It does what `run` decides, and decides nothing by itself: the source that the
arguments ask for is read first, then the outcome is carried out. -/
def main (args : List String) : IO UInt32 := do
  let input ←
    match source? args with
    | none => pure none
    | some .standardInput => readStandardInput
    | some (.file name) => readFile name
  let outcome := run args fun _ => input
  IO.print outcome.standardOutput
  if outcome.standardError ≠ "" then IO.eprintln outcome.standardError
  return outcome.exitCode.toUInt32
