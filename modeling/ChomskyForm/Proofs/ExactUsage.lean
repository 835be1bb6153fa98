import Mathlib.Data.List.Induction
import ChomskyForm.Proofs.FeedingBack
import ChomskyForm.Proofs.PrefixCode

set_option autoImplicit false
set_option relaxedAutoImplicit false

/-!
# Exactly the written commands are accepted

Whatever the arguments are, they are accepted if and only if they can be written as the parts of a
command, and there is at most one way to do so. Any other arguments are an error of use or a call
for help, according to what the options are followed by. So the outcome of every list of arguments
is known, without going through the list again.

## Main definitions

* `ChomskyForm.CommandLine.Parts`: the parts of a command.
* `ChomskyForm.CommandLine.Parts.Spells`: the arguments that they are written as.
* `ChomskyForm.CommandLine.afterWords`: what follows the words for stages and outputs.
* `ChomskyForm.CommandLine.Misuse`: the arguments that are an error of use.
* `ChomskyForm.CommandLine.helpText`: the help text.
* `ChomskyForm.CommandLine.StageWord.effect`, `ChomskyForm.CommandLine.Parts.result`: what stages
  do.

## Main results

* `ChomskyForm.CommandLine.Parts.Spells.unique`: the parts of a command are unique.
* `ChomskyForm.CommandLine.Settings.ofOptions_eq_ofLast`: the last option of each kind decides.
* `ChomskyForm.CommandLine.readOptions_cases`: what may happen when options are read.
* `ChomskyForm.CommandLine.parse_cases`: what may happen to a list of arguments.
* `ChomskyForm.CommandLine.usage_exact`: the outcome of every list of arguments.
-/

namespace ChomskyForm

namespace CommandLine

/-! ## Words -/

/-- **What follows the words** for stages and outputs. A word for a stage that comes after an
output is no word any more, but a file. -/
def afterWords (args : List String) : List String :=
  (args.dropWhile (· ∈ stageWords)).dropWhile (· ∈ outputWords)

section Words

variable {α : Type} {word? : String → Option α} {word : α → String}

/-- Words and what follows them make up the whole list, so nothing is lost when words are taken. -/
lemma map_word_takeWords (hword : ∀ arg a, word? arg = some a → word a = arg)
    (args : List String) :
    (takeWords word? args).1.map word ++ (takeWords word? args).2 = args := by
  induction args with
  | nil => rfl
  | cons arg args ih =>
    cases harg : word? arg with
    | none => simp [takeWords, harg]
    | some a => simp [takeWords, harg, hword arg a harg, ih]

/-- The words end before the first argument that is none, even if others follow it. -/
lemma takeWords_snd (args : List String) :
    (takeWords word? args).2 = args.dropWhile fun arg => (word? arg).isSome := by
  induction args with
  | nil => rfl
  | cons arg args ih =>
    cases harg : word? arg with
    | none => simp [takeWords, harg]
    | some a => simp [takeWords, harg, ih]

/-- No word follows the words, as it would have been taken too. -/
lemma word?_head_takeWords (args : List String) :
    ∀ arg ∈ (takeWords word? args).2.head?, word? arg = none := by
  intro arg harg
  rw [takeWords_snd] at harg
  have hnone := List.head?_dropWhile_not (fun arg => (word? arg).isSome) args
  rw [Option.mem_def.1 harg] at hnone
  simpa using hnone

end Words

/-- Only the word for a stage is taken for it. -/
lemma StageWord.word_of_ofText? (arg : String) (stage : StageWord)
    (h : StageWord.ofText? arg = some stage) : stage.word = arg := by
  unfold StageWord.ofText? at h
  split at h <;> cases h <;> rfl

/-- Only the word for an output is taken for it. -/
lemma Output.word_of_ofText? (arg : String) (output : Output)
    (h : Output.ofText? arg = some output) : output.word = arg := by
  unfold Output.ofText? at h
  split at h <;> cases h <;> rfl

/-- Options are read from what follows the words, first those for stages and then those for
outputs. -/
lemma takeWords_takeWords_snd (args : List String) :
    (takeWords Output.ofText? (takeWords StageWord.ofText? args).2).2 = afterWords args := by
  simp only [takeWords_snd, StageWord.isSome_ofText?, Output.isSome_ofText?, afterWords]

/-! ## Options -/

/-- The words for options, of which the first two call for help and the last two need a value. -/
def optionWords : List String := ["-h", "--help", "-l", "-j", "-t", "-x"]

/-- **Objections** to what follows the options that can be read. A call for help is none, nor is a
file. -/
inductive Objection : List String → UsageError → Prop
  /-- An argument that begins with a hyphen is not a word for an option. -/
  | unknownOption {arg : String} (rest : List String) (hhyphen : arg.toList.head? = some '-')
      (hunknown : arg ∉ optionWords) : Objection (arg :: rest) (.unknownOption arg)
  /-- The last argument is an option that needs a value. -/
  | missingValue {arg : String} (hvalue : arg = "-t" ∨ arg = "-x") :
      Objection [arg] (.missingValue arg)

/-- No option is not written at all. So the options in a list of arguments can be counted. -/
lemma Setting.arguments_ne_nil (option : Setting) : option.arguments ≠ [] := by
  cases option <;> exact List.cons_ne_nil _ _

/-- No option begins with another one. So options are read off one by one. -/
lemma Setting.prefixFree_arguments : PrefixFree Setting.arguments := by
  intro a b hab
  cases a <;> cases b <;> simp_all [Setting.arguments, List.cons_prefix_cons]

section Reading

variable {arg : String} {rest : List String} (settings : Settings)

/-- An argument without a hyphen ends the options, and is left for the source. -/
lemma readOptions_of_not_option (harg : isOption arg = false) :
    readOptions settings (arg :: rest) = .ok (some (settings, arg :: rest)) := by
  cases rest <;> simp [readOptions, harg]

/-- A call for help is answered, whatever follows it. -/
lemma readOptions_of_help (harg : arg = "-h" ∨ arg = "--help") :
    readOptions settings (arg :: rest) = .ok none := by
  rcases harg with rfl | rfl <;> cases rest <;> simp [readOptions, isOption]

/-- An objection is reported, whatever has been read before. -/
lemma readOptions_of_objection {e : UsageError} (h : Objection rest e) :
    readOptions settings rest = .error e := by
  cases h with
  | unknownOption rest hhyphen hunknown =>
    have hoption := isOption_eq_true.2 hhyphen
    simp only [optionWords, List.mem_cons, List.not_mem_nil, not_or, or_false] at hunknown
    obtain ⟨hh, hhelp, hl, hj, ht, hx⟩ := hunknown
    cases rest <;> simp [readOptions, hoption, hh, hhelp, hl, hj, ht, hx]
  | missingValue hvalue => rcases hvalue with rfl | rfl <;> simp [readOptions, isOption]

/-- What does not begin with an option ends the options, calls for help or is objected to. The
cases are those of its first argument: whether it has a hyphen, and which word it is.

**Proof sketch.** If there is a first argument and it begins with a hyphen, it may be a call for
help; it may be an option with a value, but then it is the last argument, for otherwise an option
would be the beginning; and in all other cases it is unknown. -/
lemma readOptions_of_not_prefix (hrest : ∀ option : Setting, ¬ option.arguments <+: rest) :
    ((∀ arg ∈ rest.head?, isOption arg = false) ∧
      readOptions settings rest = .ok (some (settings, rest))) ∨
    ((∃ arg ∈ rest.head?, arg = "-h" ∨ arg = "--help") ∧ readOptions settings rest = .ok none) ∨
    ∃ e, Objection rest e ∧ readOptions settings rest = .error e := by
  have hobject : ∀ {e}, Objection rest e →
      ∃ e, Objection rest e ∧ readOptions settings rest = .error e :=
    fun h => ⟨_, h, readOptions_of_objection settings h⟩
  cases rest with
  | nil => exact .inl ⟨by simp, rfl⟩
  | cons arg rest =>
    by_cases hoption : isOption arg = true
    · right
      by_cases hhelp : arg = "-h" ∨ arg = "--help"
      · exact .inl ⟨⟨arg, rfl, hhelp⟩, readOptions_of_help settings hhelp⟩
      right
      by_cases hvalue : arg = "-t" ∨ arg = "-x"
      · -- an option with a value is not the beginning, so there is no value
        cases rest with
        | nil => exact hobject (.missingValue hvalue)
        | cons stem rest =>
          rcases hvalue with rfl | rfl
          · exact absurd ⟨rest, rfl⟩ (hrest (.terminalStem stem))
          · exact absurd ⟨rest, rfl⟩ (hrest (.chainStem stem))
      · have hl : arg ≠ "-l" := fun h => hrest .latex (h ▸ ⟨rest, rfl⟩)
        have hj : arg ≠ "-j" := fun h => hrest .json (h ▸ ⟨rest, rfl⟩)
        exact hobject (.unknownOption rest (isOption_eq_true.1 hoption) (by simp_all [optionWords]))
    · rw [Bool.not_eq_true] at hoption
      exact .inl ⟨by simp [hoption], readOptions_of_not_option settings hoption⟩

/-- **Reading options.** Every list of arguments begins with options, and what follows the last one
of them ends the options, calls for help or is objected to. The options are read off as long as
there is one, which changes nothing but the settings. -/
theorem readOptions_cases (args : List String) :
    ∃ (options : List Setting) (rest : List String),
      args = options.flatMap Setting.arguments ++ rest ∧
      (((∀ arg ∈ rest.head?, isOption arg = false) ∧
        readOptions settings args = .ok (some (options.foldl Setting.apply settings, rest))) ∨
      ((∃ arg ∈ rest.head?, arg = "-h" ∨ arg = "--help") ∧ readOptions settings args = .ok none) ∨
      ∃ e, Objection rest e ∧ readOptions settings args = .error e) := by
  obtain ⟨options, rest, rfl, hrest⟩ := exists_eq_flatMap_append Setting.arguments_ne_nil args
  refine ⟨options, rest, rfl, ?_⟩
  rw [readOptions_flatMap]
  exact readOptions_of_not_prefix _ hrest

end Reading

/-! ## The last option of each kind -/

/-- The format that an option decides, if it decides one. -/
def Setting.format? : Setting → Option Format
  | latex => some .latex
  | json => some .json
  | terminalStem _ => none
  | chainStem _ => none

/-- The stem for terminals that an option decides, if it decides one. -/
def Setting.terminalStem? : Setting → Option Name
  | terminalStem stem => some stem
  | _ => none

/-- The stem for chains that an option decides, if it decides one. -/
def Setting.chainStem? : Setting → Option Name
  | chainStem stem => some stem
  | _ => none

/-- **The last option decides**, for whatever a single option either decides or leaves as it is. By
induction on the options from their end, where the last one decides or leaves it to those before. -/
lemma foldl_apply_eq_last {β : Type} (field : Settings → β) (decided? : Setting → Option β)
    (happly : ∀ settings option,
      field (Setting.apply settings option) = (decided? option).getD (field settings))
    (settings : Settings) (options : List Setting) :
    field (options.foldl Setting.apply settings) =
      (options.filterMap decided?).getLast?.getD (field settings) := by
  induction options using List.reverseRecOn with
  | nil => rfl
  | append_singleton options option ih =>
    rw [List.foldl_append, List.foldl_cons, List.foldl_nil, happly, ih, List.filterMap_append]
    cases hdecided : decided? option <;> simp [hdecided]

/-- **The settings** that the last option of each kind decides, or the default where there is
none. -/
def Settings.ofLast (options : List Setting) : Settings where
  format := (options.filterMap Setting.format?).getLast?.getD .plain
  naming :=
    { terminalStem := (options.filterMap Setting.terminalStem?).getLast?.getD "T"
      chainStem := (options.filterMap Setting.chainStem?).getLast?.getD "X"
      firstIndex := 1 }

/-- **What options decide.** The last option of each kind does. Settings consist of four values,
and for each of them `foldl_apply_eq_last` is applied to what options say about it. -/
theorem Settings.ofOptions_eq_ofLast (options : List Setting) :
    Settings.ofOptions options = Settings.ofLast options := by
  have hformat := foldl_apply_eq_last (·.format) Setting.format?
    (fun _ option => by cases option <;> rfl) {} options
  have hterminal := foldl_apply_eq_last (·.naming.terminalStem) Setting.terminalStem?
    (fun _ option => by cases option <;> rfl) {} options
  have hchain := foldl_apply_eq_last (·.naming.chainStem) Setting.chainStem?
    (fun _ option => by cases option <;> rfl) {} options
  -- no option decides where numbers begin
  have hfirst := foldl_apply_eq_last (·.naming.firstIndex) (fun _ => none)
    (fun _ option => by cases option <;> rfl) {} options
  rw [List.filterMap_eq_nil_iff.2 fun _ _ => rfl] at hfirst
  have hnaming := congr (congrArg₂ Naming.mk hterminal hchain) hfirst
  exact congrArg₂ Settings.mk hformat hnaming

/-! ## Parts -/

/-- **The parts of a command**, in the order in which they are written. -/
structure Parts where
  /-- The stages. -/
  stages : List StageWord
  /-- The outputs. -/
  outputs : List Output
  /-- The options. -/
  options : List Setting
  /-- The file, if there is one. -/
  source : Source
deriving DecidableEq, Repr

namespace Parts

variable {p q : Parts} {args : List String}

/-- What the parts ask for. The options matter only by what they decide together. -/
def request (p : Parts) : Request := ⟨p.stages, p.outputs, .ofOptions p.options, p.source⟩

/-- **Arguments that are written as parts**: words for stages, for at least one output, options and
at most one file, which is not taken for an option, nor for another output. There need not be any
stages or options. -/
structure Spells (p : Parts) (args : List String) : Prop where
  /-- There is an output. -/
  outputs_ne_nil : p.outputs ≠ []
  /-- The file can be told from what stands before. -/
  mayFollow : p.source.MayFollow p.options
  /-- The parts are written one after the other. -/
  eq_command : args = command p.stages p.outputs p.options p.source

/-- The parts ask for what the arguments ask for, so parsing finds them again. -/
lemma Spells.parse_eq (h : p.Spells args) : parse args = .ok (some p.request) := by
  rw [h.eq_command]
  exact parse_command p.stages h.outputs_ne_nil h.mayFollow

/-- **The parts of a command are unique.** What they ask for determines all of them but the options,
and options are read off one by one. -/
theorem Spells.unique (hp : p.Spells args) (hq : q.Spells args) : p = q := by
  have hrequest : p.request = q.request := by
    have hparse := hp.parse_eq.symm.trans hq.parse_eq
    exact Option.some.inj (Except.ok.inj hparse)
  have hcommand := hp.eq_command.symm.trans hq.eq_command
  obtain ⟨stages, outputs, options, source⟩ := p
  obtain ⟨stages', outputs', options', source'⟩ := q
  obtain ⟨rfl, rfl, -, rfl⟩ := Request.mk.inj hrequest
  have hoptions :=
    List.append_cancel_right (List.append_cancel_left (List.append_cancel_left hcommand))
  obtain rfl : options = options' :=
    Setting.prefixFree_arguments.eq_of_flatMap Setting.arguments_ne_nil hoptions
  rfl

end Parts

/-! ## Arguments -/

/-- **Misuse**: the options that follow the words for stages and outputs are followed by something
that is objected to. Whether there are any words does not matter. -/
def Misuse (args : List String) (e : UsageError) : Prop :=
  ∃ (options : List Setting) (rest : List String),
    afterWords args = options.flatMap Setting.arguments ++ rest ∧ Objection rest e

/-- Misuse is reported, whatever else there is in the arguments. -/
lemma parse_of_misuse {args : List String} {e : UsageError} (h : Misuse args e) :
    parse args = .error e := by
  obtain ⟨options, rest, hargs, hrest⟩ := h
  have hread : readOptions {} (afterWords args) = .error e := by
    rw [hargs, readOptions_flatMap, readOptions_of_objection _ hrest]
  simp [parse, takeWords_takeWords_snd, hread]

/-- A source is written as the only argument. -/
lemma Source.arguments_eq_singleton {source : Source} {name : String}
    (hname : name ∈ source.arguments) : source.arguments = [name] := by
  cases source with
  | standardInput => exact absurd hname List.not_mem_nil
  | file name' => rw [arguments, List.mem_singleton.1 hname]

/-- Arguments with an output and with nothing but options and a source behind it are written as
parts. That the source is not taken for an output follows from where the outputs end.

**Proof sketch.** The parts are the words that are taken, the given options and the given source.
What remains to be seen is that the source may follow: it has no hyphen, and if there are no
options it comes right after the outputs, where no word for an output is left. -/
lemma exists_spells {args : List String} {options : List Setting} {source : Source}
    (houtputs : (takeWords Output.ofText? (takeWords StageWord.ofText? args).2).1 ≠ [])
    (hafter : afterWords args = options.flatMap Setting.arguments ++ source.arguments)
    (hsource : ∀ arg ∈ source.arguments.head?, isOption arg = false) :
    ∃ p : Parts, p.Spells args := by
  have hmayFollow : source.MayFollow options := by
    intro name hname
    have hsingle := source.arguments_eq_singleton hname
    refine ⟨isOption_eq_false.1 (hsource name (by rw [hsingle]; rfl)), ?_⟩
    rintro rfl
    refine Output.ofText?_eq_none.1 <|
      word?_head_takeWords (takeWords StageWord.ofText? args).2 name ?_
    rw [takeWords_takeWords_snd, hafter, hsingle]
    rfl
  refine ⟨⟨(takeWords StageWord.ofText? args).1, _, options, source⟩, houtputs, hmayFollow, ?_⟩
  rw [command, ← hafter, ← takeWords_takeWords_snd,
    map_word_takeWords Output.word_of_ofText?, map_word_takeWords StageWord.word_of_ofText?]

/-- **Arguments.** Either they are written as parts, or they are misused, or they call for help.

**Proof sketch.** The words are taken, and `readOptions_cases` says what the options are followed
by. What is objected to is misuse. What ends the options is a source or too much for one: in the
first case the arguments are parts if there is an output, and in all others the answer is help. -/
theorem parse_cases (args : List String) :
    (∃ p : Parts, p.Spells args) ∨ (∃ e, Misuse args e) ∨ parse args = .ok none := by
  obtain ⟨options, rest, hafter, hcases⟩ := readOptions_cases {} (afterWords args)
  rcases hcases with ⟨hhead, hok⟩ | ⟨-, hhelp⟩ | ⟨e, he, -⟩
  · by_cases houtputs : (takeWords Output.ofText? (takeWords StageWord.ofText? args).2).1 = []
    · exact .inr (.inr (by simp [parse, takeWords_takeWords_snd, hok, houtputs]))
    by_cases hsource : ∃ source : Source, source.arguments = rest
    · obtain ⟨source, rfl⟩ := hsource
      exact .inl (exists_spells houtputs hafter hhead)
    · refine .inr (.inr ?_)
      cases rest with
      | nil => exact absurd ⟨.standardInput, rfl⟩ hsource
      | cons name rest =>
        cases rest with
        | nil => exact absurd ⟨.file name, rfl⟩ hsource
        | cons name' rest => simp [parse, takeWords_takeWords_snd, hok]
  · exact .inr (.inr (by simp [parse, takeWords_takeWords_snd, hhelp]))
  · exact .inr (.inl ⟨e, options, rest, hafter, he⟩)

/-! ## Outcomes -/

/-- **The help text**, as it is printed. Each of its lines has the end of a line behind it. -/
def helpText : String :=
  String.join
    ["Usage: cnf-helper [stages] outputs [options] [grammar file]\n",
      "stages (applied in the given order):\n",
      "  eps: Eliminate epsilon productions\n",
      "  unit: Eliminate unit productions\n",
      "  reach: Remove unreachable variables\n",
      "  gen: Remove unproductive variables\n",
      "  bin: Isolate terminals and binarize\n",
      "  cnf: All of the above, in order\n",
      "outputs:\n",
      "  prod: Productions\n",
      "  vars: Nullable, reachable, productive and unit closure per variable\n",
      "options:\n",
      "  -h: Print this help\n",
      "  -l: Print in LaTeX format\n",
      "  -j: Print in JSON format\n",
      "  -t PREFIX: Prefix of variables standing for a terminal (default T)\n",
      "  -x PREFIX: Prefix of variables splitting long productions (default X)\n",
      "The grammar is a JSON object with variables, terminals, start and productions.\n"]

/-- The lines of the help text are printed one after the other, and make up this text. -/
lemma asLines_helpLines : asLines helpLines = helpText := by
  simp only [asLines, helpLines, helpText, List.map_cons, List.map_nil, String.reduceAppend]

/-- **What a stage does** to a grammar, given how new variables are named. Only the last two stages
name any. -/
def StageWord.effect (naming : Naming) (g : Grammar) : StageWord → Grammar
  | eps => g.eliminateEpsilon
  | unit => g.eliminateUnits
  | reach => g.pruneUnreachable
  | gen => g.pruneUnproductive
  | bin => g.binarize naming
  | cnf => g.normalize naming

/-- A run of stages has the effects of its words, one after the other. -/
lemma run_map_toStage (naming : Naming) (g : Grammar) (stages : List StageWord) :
    g.run (stages.map (StageWord.toStage naming)) = stages.foldl (StageWord.effect naming) g := by
  rw [Grammar.run, List.foldl_map]
  congr 1
  funext g stage
  cases stage <;> rfl

/-- An attempt to read and print fails before anything is printed, or not at all, as no output
fails to be written. -/
lemma Request.exitCode_outcome (r : Request) (input : String) :
    (r.outcome input).exitCode = 0 ∨
      (r.outcome input).exitCode = 1 ∧ (r.outcome input).standardOutput = "" := by
  unfold Request.outcome
  split
  · exact .inr ⟨rfl, rfl⟩
  · rw [printAll_eq]
    exact .inl rfl

/-- **Whatever happens, a command succeeds, or it fails and prints nothing** on its standard output.

There are five places where a command may fail. At four of them nothing has been printed yet; at the
last one, where the outputs are written, no command fails, as `printAll_eq` says. -/
theorem exitCode_run (args : List String) (read : Source → Option String) :
    (run args read).exitCode = 0 ∨
      (run args read).exitCode = 1 ∧ (run args read).standardOutput = "" := by
  unfold run
  split
  · exact .inr ⟨rfl, rfl⟩
  · exact .inl rfl
  · split
    · exact .inr ⟨rfl, rfl⟩
    · exact Request.exitCode_outcome _ _

namespace Parts

variable {p : Parts} {args : List String} {read : Source → Option String}

/-- **The grammar that is printed**: the stages have their effects in the order in which they are
written, and the last options decide how new variables are named. All outputs are about this
grammar. -/
def result (p : Parts) (g : Grammar) : Grammar :=
  p.stages.foldl (StageWord.effect (Settings.ofLast p.options).naming) g

/-- **Parts succeed** if a grammar is read. -/
lemma Spells.run_eq (h : p.Spells args) {input : String} (hread : read p.source = some input)
    {g : Grammar} (hg : Grammar.ofJson input = .ok g) :
    run args read = ⟨0, String.join (p.outputs.map fun output =>
      output.text (p.result g) (Settings.ofLast p.options).format ++ "\n"), ""⟩ := by
  rw [h.eq_command, run_command p.stages h.outputs_ne_nil h.mayFollow hread hg,
    Settings.ofOptions_eq_ofLast, run_map_toStage, asLines, List.map_map]
  rfl

/-- **Parts fail** if no grammar is read, be it that there is nothing to read or that it describes
none. -/
lemma Spells.exitCode_eq_one (h : p.Spells args)
    (hno : ¬ ∃ input g, read p.source = some input ∧ Grammar.ofJson input = .ok g) :
    (run args read).exitCode = 1 := by
  rw [h.eq_command]
  cases hread : read p.source with
  | none => rw [run_command_of_unavailable p.stages h.outputs_ne_nil h.mayFollow hread]
  | some input =>
    cases hg : Grammar.ofJson input with
    | error failure => rw [run_command_of_error p.stages h.outputs_ne_nil h.mayFollow hread hg]
    | ok g => exact absurd ⟨input, g, hread, hg⟩ hno

end Parts

/-- **A source is read** if and only if the arguments are written as parts. Misuse and calls for
help are answered without reading anything. -/
theorem source?_eq_some_iff {args : List String} {source : Source} :
    source? args = some source ↔ ∃ p : Parts, p.Spells args ∧ p.source = source := by
  constructor
  · intro hsource
    rcases parse_cases args with ⟨p, hp⟩ | ⟨e, he⟩ | hnone
    · refine ⟨p, hp, ?_⟩
      rw [source?, hp.parse_eq] at hsource
      exact Option.some.inj hsource
    · rw [source?, parse_of_misuse he] at hsource
      cases hsource
    · rw [source?, hnone] at hsource
      cases hsource
  · rintro ⟨p, hp, rfl⟩
    rw [source?, hp.parse_eq]
    rfl

/-- **Misuse fails**, whatever there is to read, and the message says what is objected to. -/
theorem run_of_misuse {args : List String} {e : UsageError} (h : Misuse args e)
    (read : Source → Option String) :
    run args read = ⟨1, "", "Error: " ++ (CommandError.usage e).message⟩ := by
  rw [run, parse_of_misuse h]
  rfl

/-- **Help** is the answer to all other arguments, also if there are none at all. -/
theorem run_of_not_spelled {args : List String} (hparts : ¬ ∃ p : Parts, p.Spells args)
    (hmisuse : ¬ ∃ e, Misuse args e) (read : Source → Option String) :
    run args read = ⟨0, helpText, ""⟩ := by
  have hnone : parse args = .ok none :=
    ((parse_cases args).resolve_left hparts).resolve_left hmisuse
  rw [run, hnone, ← asLines_helpLines]
  rfl

/-- **The outcome of every command.** A source is read if and only if the arguments are written as
parts; these are unique and ask for the stages and outputs in their order, and for what the last
option of each kind decides. An unknown option and an option without its value fail, and whatever is
neither written as parts nor misused is answered with the help text.

Whoever fails prints nothing. Parts succeed if and only if a grammar is read, and then the stages
have their effects on it, in their order, and the text of each output is printed, in its format and
with the end of a line behind it; nothing else is printed.

**Proof sketch.** `parse_cases` says when the arguments are written as parts, and what happens
otherwise; what happens to parts is known from `Parts.Spells.run_eq` and
`Parts.Spells.exitCode_eq_one`. -/
theorem usage_exact (args : List String) (read : Source → Option String) :
    (∀ source, source? args = some source ↔ ∃ p : Parts, p.Spells args ∧ p.source = source) ∧
    (∀ p q : Parts, p.Spells args → q.Spells args → p = q) ∧
    (∀ p : Parts, p.Spells args →
      parse args = .ok (some ⟨p.stages, p.outputs, .ofLast p.options, p.source⟩)) ∧
    (∀ option, Misuse args (.unknownOption option) →
      run args read = ⟨1, "", "Error: unknown option " ++ option⟩) ∧
    (∀ option, Misuse args (.missingValue option) →
      run args read = ⟨1, "", "Error: " ++ (option ++ " expects a prefix")⟩) ∧
    ((¬ ∃ p : Parts, p.Spells args) → (¬ ∃ e, Misuse args e) → run args read = ⟨0, helpText, ""⟩) ∧
    ((run args read).exitCode = 0 ∨
      (run args read).exitCode = 1 ∧ (run args read).standardOutput = "") ∧
    ∀ p : Parts, p.Spells args →
      ((run args read).exitCode = 0 ↔
        ∃ input g, read p.source = some input ∧ Grammar.ofJson input = .ok g) ∧
      ∀ input g, read p.source = some input → Grammar.ofJson input = .ok g →
        run args read = ⟨0, String.join (p.outputs.map fun output =>
          output.text (p.result g) (Settings.ofLast p.options).format ++ "\n"), ""⟩ := by
  refine ⟨fun _ => source?_eq_some_iff, fun p q hp hq => hp.unique hq, fun p hp => ?_,
    fun option h => ?_, fun option h => run_of_misuse h read,
    fun hparts hmisuse => run_of_not_spelled hparts hmisuse read, exitCode_run args read,
    fun p hp => ⟨?_, fun input g hread hg => hp.run_eq hread hg⟩⟩
  · rw [hp.parse_eq, Parts.request, Settings.ofOptions_eq_ofLast]
  · rw [run_of_misuse h read, CommandError.message, ← String.append_assoc]
    rfl
  · constructor
    · intro hzero
      by_contra hno
      rw [hp.exitCode_eq_one hno] at hzero
      exact absurd hzero Nat.one_ne_zero
    · rintro ⟨input, g, hread, hg⟩
      rw [hp.run_eq hread hg]

/-- Commands that look like something else. In the first one, a file has the name of a stage, an
option is the value of another one, and two options decide the format. In the second one, the value
is missing. The third one has the stage and the file of the same name, and prints both outputs. -/
theorem usage_exact_disguised :
    source? ["cnf", "prod", "-j", "-l", "-t", "-x", "eps"] = some (.file "eps") ∧
    (run ["cnf", "prod", "-j", "-l", "-t"] fun _ => some Grammar.nested.json) =
      ⟨1, "", "Error: -t expects a prefix"⟩ ∧
    (run ["eps", "prod", "vars", "-t", "-x", "eps"] fun source =>
        if source = .file "eps" then some Grammar.nested.json else none) =
      ⟨0, "S -> ε\n   | a b\n   | a S b\nS | true | true | true | \n", ""⟩ := by
  have hread : Parts.Spells
      ⟨[.cnf], [.productions], [.json, .latex, .terminalStem "-x"], .file "eps"⟩
      ["cnf", "prod", "-j", "-l", "-t", "-x", "eps"] :=
    ⟨List.cons_ne_nil _ _, by simp [Source.MayFollow, Source.arguments], rfl⟩
  have hmisuse : Misuse ["cnf", "prod", "-j", "-l", "-t"] (.missingValue "-t") :=
    ⟨[.json, .latex], ["-t"], by decide, .missingValue (.inl rfl)⟩
  have hprinted : Parts.Spells
      ⟨[.eps], [.productions, .variableTable], [.terminalStem "-x"], .file "eps"⟩
      ["eps", "prod", "vars", "-t", "-x", "eps"] :=
    ⟨List.cons_ne_nil _ _, by simp [Source.MayFollow, Source.arguments], rfl⟩
  have hg := Grammar.ofJson_json Grammar.ofDescription_nested
  have hlisting : Grammar.nested.toGrammar.eliminateEpsilon.listing =
      ⟨[⟨"S", [["ε"], ["a", "b"], ["a", "S", "b"]]⟩]⟩ := by cbv
  have htable : Grammar.nested.toGrammar.eliminateEpsilon.variableTable =
      ⟨[⟨"S", true, true, true, []⟩]⟩ := by cbv
  have hcolumn : padLeft "S".length "S" = "S" ∧ blanks "S".length = " " := ⟨rfl, rfl⟩
  refine ⟨((usage_exact _ fun _ => none).1 _).2 ⟨_, hread, rfl⟩,
    (usage_exact _ _).2.2.2.2.1 _ hmisuse, ?_⟩
  calc run ["eps", "prod", "vars", "-t", "-x", "eps"] _
    _ = ⟨0, String.join [Grammar.nested.toGrammar.eliminateEpsilon.listing.plain ++ "\n",
          Grammar.nested.toGrammar.eliminateEpsilon.variableTable.plain ++ "\n"], ""⟩ :=
      ((usage_exact _ _).2.2.2.2.2.2.2 _ hprinted).2 _ _ (if_pos rfl) hg
    _ = _ := by
      rw [hlisting, htable]
      simp [Listing.plain, Listing.width, Paragraph.plain, Paragraph.separator, hcolumn,
        VariableTable.plain, VariableRow.plain, truthText]

end CommandLine

end ChomskyForm
