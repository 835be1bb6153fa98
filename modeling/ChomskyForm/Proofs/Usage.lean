import Mathlib.Tactic.Common
import ChomskyForm.CommandLine.Outcome

set_option autoImplicit false
set_option relaxedAutoImplicit false

/-!
# Commands as they are written

The parts of a command, written as arguments, are found again: words by the place where they end,
options by their hyphen, and the value of an option by its place, so that it may be any text. Hence
the outcome of a written command is known from its parts.

## Main definitions

* `ChomskyForm.CommandLine.Setting`: a single option.
* `ChomskyForm.CommandLine.Settings.ofOptions`: what a list of options decides.
* `ChomskyForm.CommandLine.command`: a command with given parts.
* `ChomskyForm.CommandLine.Source.MayFollow`: the files that can be told from outputs and options.
* `ChomskyForm.CommandLine.Output.text`: the text of an output.

## Main results

* `ChomskyForm.CommandLine.parse_command`: the request of a command consists of its parts.
* `ChomskyForm.CommandLine.printAll_eq`: no output fails.
* `ChomskyForm.CommandLine.run_command`, `ChomskyForm.CommandLine.run_command_of_error`,
  `ChomskyForm.CommandLine.run_command_of_unavailable`: the outcome of a command.
-/

namespace ChomskyForm

namespace CommandLine

/-! ## Words -/

/-- The word for a stage. -/
def StageWord.word : StageWord → String
  | eps => "eps"
  | unit => "unit"
  | reach => "reach"
  | gen => "gen"
  | bin => "bin"
  | cnf => "cnf"

/-- The word for an output. -/
def Output.word : Output → String
  | productions => "prod"
  | variableTable => "vars"

/-- All words for stages, as a user writes them. -/
def stageWords : List String := ["eps", "unit", "reach", "gen", "bin", "cnf"]

/-- All words for outputs, as a user writes them. -/
def outputWords : List String := ["prod", "vars"]

/-- The word for a stage is taken for it. -/
@[simp] lemma StageWord.ofText?_word (stage : StageWord) :
    StageWord.ofText? stage.word = some stage := by
  cases stage <;> rfl

/-- The word for an output is taken for it. -/
@[simp] lemma Output.ofText?_word (output : Output) : Output.ofText? output.word = some output := by
  cases output <;> rfl

/-- Exactly the words for stages are taken for one; the other arguments are looked at as words for
outputs. -/
lemma StageWord.isSome_ofText? (arg : String) :
    (StageWord.ofText? arg).isSome = decide (arg ∈ stageWords) := by
  unfold StageWord.ofText?
  split <;> simp_all [stageWords]

/-- Exactly the words for outputs are taken for one. -/
lemma Output.isSome_ofText? (arg : String) :
    (Output.ofText? arg).isSome = decide (arg ∈ outputWords) := by
  unfold Output.ofText?
  split <;> simp_all [outputWords]

/-- Other arguments are taken for none, so the outputs end there. -/
lemma Output.ofText?_eq_none {arg : String} : Output.ofText? arg = none ↔ arg ∉ outputWords := by
  rw [← Option.not_isSome_iff_eq_none, Output.isSome_ofText?, decide_eq_true_eq]

/-- No word stands for a stage and for an output. So the outputs end the stages. -/
lemma StageWord.ofText?_outputWord (output : Output) : StageWord.ofText? output.word = none := by
  cases output <;> rfl

/-- **Words are found again**, if what follows them does not begin with a word. By induction on the
words: each of them is taken for what it stands for. -/
lemma takeWords_map {α : Type} {word? : String → Option α} {word : α → String}
    (hword : ∀ a, word? (word a) = some a) (words : List α) {rest : List String}
    (hrest : ∀ arg ∈ rest.head?, word? arg = none) :
    takeWords word? (words.map word ++ rest) = (words, rest) := by
  induction words with
  | nil =>
    cases rest with
    | nil => rfl
    | cons arg args =>
      have hnone : word? arg = none := hrest arg rfl
      simp [takeWords, hnone]
  | cons a words ih => simp [takeWords, hword, ih]

/-! ## Options -/

/-- **Single options** with their values. What follows an option that needs a value is its value,
whatever it looks like. -/
inductive Setting where
  | latex
  | json
  /-- The stem of variables that stand for terminals. -/
  | terminalStem (stem : Name)
  /-- The stem of variables that split long alternatives. -/
  | chainStem (stem : Name)
deriving DecidableEq, Repr

/-- An option as it is written, with its value as an argument of its own. -/
def Setting.arguments : Setting → List String
  | latex => ["-l"]
  | json => ["-j"]
  | terminalStem stem => ["-t", stem]
  | chainStem stem => ["-x", stem]

/-- What an option changes. Everything else stays as the options before have left it. -/
def Setting.apply (settings : Settings) : Setting → Settings
  | latex => { settings with format := .latex }
  | json => { settings with format := .json }
  | terminalStem stem => { settings with naming := { settings.naming with terminalStem := stem } }
  | chainStem stem => { settings with naming := { settings.naming with chainStem := stem } }

/-- **What a list of options decides**, when they are read from the first to the last one. -/
def Settings.ofOptions (options : List Setting) : Settings := options.foldl Setting.apply {}

/-- An option is read, and the reader goes on with what it has changed. -/
lemma readOptions_arguments (settings : Settings) (option : Setting) (rest : List String) :
    readOptions settings (option.arguments ++ rest) = readOptions (option.apply settings) rest := by
  -- the equations of the reader tell a last argument from one that may have a value
  cases option <;> cases rest <;>
    simp [Setting.arguments, Setting.apply, readOptions, isOption]

/-- **Options are read** one after another. -/
lemma readOptions_flatMap (settings : Settings) (options : List Setting) (rest : List String) :
    readOptions settings (options.flatMap Setting.arguments ++ rest) =
      readOptions (options.foldl Setting.apply settings) rest := by
  induction options generalizing settings with
  | nil => rfl
  | cons option options ih =>
    rw [List.flatMap_cons, List.append_assoc, readOptions_arguments, ih, List.foldl_cons]

/-- No option is a word for an output, so the options end the outputs. -/
lemma Setting.ofText?_head (option : Setting) (rest : List String) :
    ∀ arg ∈ (option.arguments ++ rest).head?, Output.ofText? arg = none := by
  cases option <;> rintro _ ⟨⟩ <;> rfl

/-! ## Commands -/

/-- A source as it is written: the standard input is not mentioned, and a file is named. -/
def Source.arguments : Source → List String
  | standardInput => []
  | file name => [name]

/-- An argument that begins with a hyphen is taken for an option, known or not. -/
lemma isOption_eq_true {arg : String} : isOption arg = true ↔ arg.toList.head? = some '-' :=
  decide_eq_true_iff

/-- Any other argument is not. -/
lemma isOption_eq_false {arg : String} : isOption arg = false ↔ arg.toList.head? ≠ some '-' :=
  decide_eq_false_iff_not

/-- **Sources that may follow options**: a file whose name does not begin with a hyphen, and is not
a word for an output if there is no option in between. -/
def Source.MayFollow (options : List Setting) (source : Source) : Prop :=
  ∀ name ∈ source.arguments, name.toList.head? ≠ some '-' ∧ (options = [] → name ∉ outputWords)

/-- The standard input may always be meant, since there is nothing that could be misunderstood. -/
lemma Source.mayFollow_standardInput (options : List Setting) :
    Source.standardInput.MayFollow options := by
  simp [MayFollow, arguments]

/-- **Commands** with the given parts, as they are written: stages, outputs, options and the
source, in this order. -/
def command (stages : List StageWord) (outputs : List Output) (options : List Setting)
    (source : Source) : List String :=
  stages.map StageWord.word ++
    (outputs.map Output.word ++ (options.flatMap Setting.arguments ++ source.arguments))

section Command

variable (stages : List StageWord) {outputs : List Output} {options : List Setting}
  {source : Source}

/-- Reading options stops at the source, which is no option. -/
lemma readOptions_source (settings : Settings) (hsource : source.MayFollow options) :
    readOptions settings source.arguments = .ok (some (settings, source.arguments)) := by
  cases source with
  | standardInput => rfl
  | file name =>
    have hname : isOption name = false := isOption_eq_false.2 (hsource name List.mem_cons_self).1
    simp [Source.arguments, readOptions, hname]

/-- What follows the outputs does not begin with another one: it is an option or a file that may
follow. -/
lemma ofText?_head_options (hsource : source.MayFollow options) :
    ∀ arg ∈ (options.flatMap Setting.arguments ++ source.arguments).head?,
      Output.ofText? arg = none := by
  cases options with
  | nil =>
    exact fun arg harg =>
      Output.ofText?_eq_none.2 ((hsource arg (List.mem_of_mem_head? harg)).2 rfl)
  | cons option options =>
    rw [List.flatMap_cons, List.append_assoc]
    exact option.ofText?_head _

/-- **Parsing.** The request that a command makes consists of the parts of the command.

**Proof sketch.** The parts are taken from the front one after another. Each kind of them ends
where the next one begins: outputs are not words for stages, neither options nor the source are
words for outputs, and the source is no option. -/
theorem parse_command (houtputs : outputs ≠ []) (hsource : source.MayFollow options) :
    parse (command stages outputs options source) =
      .ok (some ⟨stages, outputs, .ofOptions options, source⟩) := by
  -- the stages end where the outputs begin, since there is an output
  have hhead : ∀ arg ∈ (outputs.map Output.word ++
      (options.flatMap Setting.arguments ++ source.arguments)).head?,
      StageWord.ofText? arg = none := by
    obtain ⟨output, outputs, rfl⟩ := List.exists_cons_of_ne_nil houtputs
    rintro _ ⟨⟩
    exact StageWord.ofText?_outputWord output
  have hstages := takeWords_map StageWord.ofText?_word stages hhead
  have houtputs' := takeWords_map Output.ofText?_word outputs (ofText?_head_options hsource)
  have hoptions : readOptions {} (options.flatMap Setting.arguments ++ source.arguments) =
      .ok (some (.ofOptions options, source.arguments)) :=
    (readOptions_flatMap {} options _).trans (readOptions_source _ hsource)
  have hnonempty : outputs.isEmpty = false := List.isEmpty_eq_false_iff.2 houtputs
  simp only [parse, command, hstages, houtputs', hoptions, hnonempty]
  cases source <;> rfl

end Command

/-! ## Outcomes -/

/-- **The text of an output** in each of the formats: of the productions and of the table of
variables, as plain text, as LaTeX and as JSON text. -/
def Output.text (g : Grammar) : Output → Format → String
  | productions, .plain => g.listing.plain
  | productions, .latex => g.listing.latex
  | productions, .json => g.toDescription.json
  | variableTable, .plain => g.variableTable.plain
  | variableTable, .latex => g.variableTable.latex
  | variableTable, .json => g.variableTable.json

/-- No output fails to be written, neither a description nor a table: plain text and formulas are
put together without an attempt, and the writer accepts all values that are made of them. -/
lemma Output.text?_eq_ok (g : Grammar) (format : Format) (output : Output) :
    output.text? g format = .ok (output.text g format) := by
  cases output with
  | productions =>
    cases format with
    | plain => rfl
    | latex => rfl
    | json => exact g.toDescription.write_value
  | variableTable =>
    cases format with
    | plain => rfl
    | latex => rfl
    | json => exact g.variableTable.write_value

/-- **All outputs are printed**, each with the end of a line behind it.

**Proof sketch.** Induction on the outputs. The text that has been printed before grows by one line
with each of them, since none of them fails. -/
theorem printAll_eq (g : Grammar) (format : Format) (outputs : List Output) (printed : String) :
    printAll g format printed outputs =
      .success (printed ++ asLines (outputs.map (·.text g format))) := by
  induction outputs generalizing printed with
  | nil => simp [printAll, asLines]
  | cons output outputs ih =>
    rw [printAll, Output.text?_eq_ok]
    dsimp only
    rw [ih, List.map_cons]
    simp [asLines, String.append_assoc]

section Command

variable (stages : List StageWord) {outputs : List Output} {options : List Setting}
  {source : Source} (houtputs : outputs ≠ []) (hsource : source.MayFollow options)
  {read : Source → Option String} {input : String}

include houtputs hsource

/-- **Outcome of a command** that reads the text of a grammar. It succeeds, prints one line for
each output, and reports no error. -/
theorem run_command (hread : read source = some input) {g : Grammar}
    (hg : Grammar.ofJson input = .ok g) :
    run (command stages outputs options source) read =
      ⟨0, asLines (outputs.map (·.text
        (g.run (stages.map (StageWord.toStage (Settings.ofOptions options).naming)))
        (Settings.ofOptions options).format)), ""⟩ := by
  rw [run, parse_command stages houtputs hsource]
  simp only [hread, Request.outcome, hg, printAll_eq, String.empty_append]
  rfl

/-- **Outcome of a command** that reads a text that describes no grammar. It fails with the reason
and prints nothing. -/
theorem run_command_of_error (hread : read source = some input) {failure : Failure}
    (hfailure : Grammar.ofJson input = .error failure) :
    run (command stages outputs options source) read =
      ⟨1, "", "Error: " ++ (CommandError.failure failure).message⟩ := by
  simp [run, parse_command stages houtputs hsource, hread, Request.outcome, hfailure,
    Outcome.failed]

/-- **Outcome of a command** whose source cannot be read. It fails with the name of the source and
prints nothing. -/
theorem run_command_of_unavailable (hread : read source = none) :
    run (command stages outputs options source) read =
      ⟨1, "", "Error: " ++ (CommandError.unavailable source).message⟩ := by
  simp [run, parse_command stages houtputs hsource, hread, Outcome.failed]

end Command

end CommandLine

end ChomskyForm
