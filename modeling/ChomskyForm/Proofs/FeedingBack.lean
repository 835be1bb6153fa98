import ChomskyForm.Proofs.NormalForm
import ChomskyForm.Proofs.ReadingBack
import ChomskyForm.Proofs.RoundTrip
import ChomskyForm.Proofs.Usage

set_option autoImplicit false
set_option relaxedAutoImplicit false

/-!
# Outputs as inputs

The text of a grammar can be fed back, if every variable of the grammar has an alternative. Nothing
but the grammar is handed on from one stage to the next, so a command may be interrupted between two
stages and resumed from the text of the grammar.

## Main results

* `ChomskyForm.Grammar.WellFormed.ofJson_json`: the text of a complete grammar describes it.
* `ChomskyForm.Grammar.ofDescription_normalize`,
  `ChomskyForm.Grammar.ofDescription_normalize_of_noWords`: whether the description of a normalized
  grammar is accepted depends on whether any word is generated.
* `ChomskyForm.normalFormJson_endToEnd`: the conversion of any text, by itself and as a command.
* `ChomskyForm.CommandLine.run_command_append`: commands compose.
-/

namespace ChomskyForm

/-! ## Texts of grammars -/

namespace Grammar

variable {g : Grammar} {text : String}

/-- **A text describes a grammar** if it holds a description that is accepted. -/
lemma ofJson_eq_ok :
    ofJson text = .ok g ↔ ∃ d, Description.ofJson text = .ok d ∧ ofDescription d = .ok g := by
  unfold ofJson
  cases Description.ofJson text with
  | error e => simp
  | ok d => cases h : ofDescription d <;> simp [h]

/-- The text of an accepted description describes its grammar. -/
lemma ofJson_json {d : Description} (hd : ofDescription d = .ok g) : ofJson d.json = .ok g :=
  ofJson_eq_ok.2 ⟨d, Description.ofJson_json d, hd⟩

/-- The grammar that a text describes is well formed, since its description was accepted. -/
lemma wellFormed_of_ofJson (h : ofJson text = .ok g) : g.WellFormed := by
  obtain ⟨d, -, hd⟩ := ofJson_eq_ok.1 h
  exact wellFormed_of_ofDescription hd

/-- **The text of a complete grammar** describes the grammar, also if blanks follow it. The end of
the line that is printed after a text is such a blank. -/
theorem WellFormed.ofJson_json (hg : g.WellFormed) (hcomplete : g.Complete) {blanks : String}
    (hblanks : Json.lex blanks.toList = []) :
    ofJson (g.toDescription.json ++ blanks) = .ok g :=
  ofJson_eq_ok.2 ⟨g.toDescription, Description.ofJson_json_append _ hblanks,
    hg.ofDescription_toDescription hcomplete⟩

/-! ## Normalized grammars -/

/-- **Whether any word is derived** can be computed: it is whether the start symbol is
productive. -/
lemma WellFormed.start_mem_productive (hg : g.WellFormed) :
    g.start ∈ g.productive ↔
      ∃ w : List Name, g.Derives [.nonterminal g.start] (w.map .terminal) := by
  simp only [mem_productive, hg.generates_iff_derives]

section Normalize

variable (hg : g.WellFormed) (naming : Naming)

include hg

/-- **With words, a normalized grammar is complete**: all of its variables are productive, and a
productive variable has an alternative. -/
lemma complete_normalize {w : List Name} (hw : g.Generates [.nonterminal g.start] w) :
    (g.normalize naming).Complete := by
  intro v hv
  rw [← productive_normalize hg naming hw] at hv
  exact exists_alternative_of_productive hv

/-- **With words, the description of a normalized grammar is accepted** as this grammar. -/
lemma ofDescription_normalize {w : List Name} (hw : g.Generates [.nonterminal g.start] w) :
    ofDescription (g.normalize naming).toDescription = .ok (g.normalize naming) :=
  (wellFormed_normalize hg naming).ofDescription_toDescription (complete_normalize hg naming hw)

/-- **Without words, the description of a normalized grammar is rejected**, since the start symbol
has no alternative.

**Proof sketch.** Without words a normalized grammar consists of the start symbol and has no
productions, so it is not complete. Its description is then rejected for the least variable without
alternatives, of which there is only one. -/
lemma ofDescription_normalize_of_noWords (h : ∀ w, ¬ g.Generates [.nonterminal g.start] w) :
    ofDescription (g.normalize naming).toDescription = .error (.emptyProductionSet g.start) := by
  have hnonterminals := nonterminals_normalize hg naming h
  have hempty : ∀ v right, right ∉ (g.normalize naming).alternatives v := by
    intro v right hr
    rw [mem_alternatives, productions_normalize hg naming h] at hr
    obtain ⟨rights, hrights, -⟩ := hr
    cases hrights
  have hincomplete : ¬ (g.normalize naming).Complete := by
    intro hcomplete
    have hstart : g.start ∈ (g.normalize naming).nonterminals := by
      rw [hnonterminals]
      exact SortedSet.mem_singleton.2 rfl
    obtain ⟨right, hr⟩ := hcomplete g.start hstart
    exact hempty _ right hr
  obtain ⟨v, hleast, hrejected⟩ :=
    (wellFormed_normalize hg naming).ofDescription_toDescription_of_not_complete hincomplete
  have hv : v ∈ (g.normalize naming).nonterminals := hleast.1.1
  rw [hnonterminals] at hv
  rwa [SortedSet.mem_singleton.1 hv] at hrejected

/-- **Normalization keeps the derived words**, those of the start symbol. -/
lemma derives_normalize (w : List Name) :
    (g.normalize naming).Derives [.nonterminal (g.normalize naming).start] (w.map .terminal) ↔
      g.Derives [.nonterminal g.start] (w.map .terminal) :=
  (wellFormed_normalize hg naming).derives_congr hg (generates_normalize hg naming)

end Normalize

end Grammar

/-! ## Conversion of texts -/

/-- A single output is followed by the end of the line. -/
lemma CommandLine.asLines_singleton (text : String) : asLines [text] = text ++ "\n" := by
  simp [asLines, String.join]

section Conversion

open CommandLine

variable {g : Grammar} {text : String}

/-- **The result of a conversion is read back** as the description of the normal form, whether or
not it is accepted. -/
lemma ofJson_normalFormJson (hg : Grammar.ofJson text = .ok g) :
    Description.ofJson (normalFormJson text) = .ok (g.normalize {}).toDescription := by
  rw [normalFormJson_of_ok hg, Description.ofJson_json]

/-- **The conversion of a text that describes no grammar** has the reason as its only field. Its
tokens are given, since it is not read by any reader here. -/
lemma lex_normalFormJson_of_error {failure : Failure}
    (hfailure : Grammar.ofJson text = .error failure) :
    Json.lex (normalFormJson text).toList =
      [.openBrace, .string "error", .colon, .string failure.message, .closeBrace] := by
  rw [normalFormJson, hfailure]
  exact Json.lex_object_quote "error" failure.message

/-- **Conversion from end to end.** If a text describes a grammar, the result is the text of a
description. It is accepted as the normal form, which derives the same words, if the grammar
derives any; otherwise it consists of the start symbol, which is reported for having no
alternative. If a text describes no grammar, the result is an object with the reason as its only
field. The command for the normal form prints the same line, or fails.

**Proof sketch.** The result is the text of the normal form's description (`normalFormJson_of_ok`),
from which that description is read back. Whether it is accepted depends on whether there are words
(`ofDescription_normalize`, `ofDescription_normalize_of_noWords`), and the words of a normal form
are those of the grammar. The command is one for which outcomes are known (`run_command`). -/
theorem normalFormJson_endToEnd (read : Source → Option String)
    (hread : read .standardInput = some text) :
    (∀ g, Grammar.ofJson text = .ok g →
      (∃ d, Description.ofJson (normalFormJson text) = .ok d ∧
        ((∃ w : List Name, g.Derives [.nonterminal g.start] (w.map .terminal)) →
          Grammar.ofDescription d = .ok (g.normalize {}) ∧
          ∀ w : List Name,
            (g.normalize {}).Derives [.nonterminal (g.normalize {}).start] (w.map .terminal) ↔
              g.Derives [.nonterminal g.start] (w.map .terminal)) ∧
        ((¬ ∃ w : List Name, g.Derives [.nonterminal g.start] (w.map .terminal)) →
          d.nonterminals = SortedSet.singleton g.start ∧ d.productions = ∅ ∧
            Grammar.ofDescription d = .error (.emptyProductionSet g.start))) ∧
      run ["cnf", "prod", "-j"] read = ⟨0, normalFormJson text ++ "\n", ""⟩) ∧
    ∀ failure, Grammar.ofJson text = .error failure →
      Json.lex (normalFormJson text).toList =
        [.openBrace, .string "error", .colon, .string failure.message, .closeBrace] ∧
      (run ["cnf", "prod", "-j"] read).exitCode = 1 ∧
      (run ["cnf", "prod", "-j"] read).standardOutput = "" := by
  have hcommand : ["cnf", "prod", "-j"] = command [.cnf] [.productions] [.json] .standardInput :=
    rfl
  have hsource := Source.mayFollow_standardInput [.json]
  refine ⟨fun g hg => ⟨⟨_, ofJson_normalFormJson hg, ?_, ?_⟩, ?_⟩, fun failure hfailure =>
    ⟨lex_normalFormJson_of_error hfailure, ?_⟩⟩
  · rintro ⟨w, hw⟩
    have hwf := Grammar.wellFormed_of_ofJson hg
    exact ⟨Grammar.ofDescription_normalize hwf {} (hwf.generates_iff_derives.2 hw),
      Grammar.derives_normalize hwf {}⟩
  · intro hnone
    have hwf := Grammar.wellFormed_of_ofJson hg
    have hwords : ∀ w, ¬ g.Generates [.nonterminal g.start] w :=
      fun w hw => hnone ⟨w, hwf.generates_iff_derives.1 hw⟩
    refine ⟨Grammar.nonterminals_normalize hwf {} hwords, ?_,
      Grammar.ofDescription_normalize_of_noWords hwf {} hwords⟩
    rw [Grammar.toDescription, Grammar.productions_normalize hwf {} hwords]
    rfl
  · rw [hcommand, run_command [.cnf] (List.cons_ne_nil _ _) hsource hread hg,
      normalFormJson_of_ok hg, ← asLines_singleton]
    rfl
  · rw [hcommand, run_command_of_error [.cnf] (List.cons_ne_nil _ _) hsource hread hfailure]
    exact ⟨rfl, rfl⟩

/-- The conversion of the grammar of nested pairs, of the grammar of endless words, which derives no
word, and of an empty text, which describes no grammar. -/
theorem normalFormJson_endToEnd_nested_endless :
    ((∃ d, Description.ofJson (normalFormJson Grammar.nested.json) = .ok d ∧
        Grammar.ofDescription d = .ok (Grammar.nested.toGrammar.normalize {})) ∧
      run ["cnf", "prod", "-j"] (fun _ => some Grammar.nested.json) =
        ⟨0, normalFormJson Grammar.nested.json ++ "\n", ""⟩) ∧
    (∃ d, Description.ofJson (normalFormJson Grammar.endless.json) = .ok d ∧
      Grammar.ofDescription d = .error (.emptyProductionSet "S")) ∧
    (run ["cnf", "prod", "-j"] fun _ => some "").exitCode = 1 := by
  have hnested : ∃ w : List Name, Grammar.nested.toGrammar.Derives [.nonterminal "S"]
      (w.map .terminal) :=
    Grammar.attainable_nested.wellFormed.start_mem_productive.1 (of_decide_eq_true (by cbv))
  have hendless : ¬ ∃ w : List Name, Grammar.endless.toGrammar.Derives [.nonterminal "S"]
      (w.map .terminal) := fun hw =>
    absurd ((Grammar.wellFormed_of_ofDescription
      Grammar.ofDescription_endless).start_mem_productive.2 hw) (of_decide_eq_false (by cbv))
  have hempty : Grammar.ofJson "" = .error (.unreadable .malformed) := by
    cbv
  obtain ⟨⟨d, hd, haccepted, -⟩, hrun⟩ :=
    (normalFormJson_endToEnd (fun _ => some Grammar.nested.json) rfl).1 _
      (Grammar.ofJson_json Grammar.ofDescription_nested)
  obtain ⟨⟨d', hd', -, hrejected⟩, -⟩ :=
    (normalFormJson_endToEnd (fun _ => some Grammar.endless.json) rfl).1 _
      (Grammar.ofJson_json Grammar.ofDescription_endless)
  exact ⟨⟨⟨d, hd, (haccepted hnested).1⟩, hrun⟩, ⟨d', hd', (hrejected hendless).2.2⟩,
    ((normalFormJson_endToEnd (fun _ => some "") rfl).2 _ hempty).2.1⟩

end Conversion

/-! ## Composition of commands -/

namespace CommandLine

/-- **Commands compose.** If a command prints a complete grammar in the format JSON, another
command that reads this text and names new variables in the same way has the outcome of a single
command with the stages of both.

**Proof sketch.** The second command reads back the very grammar that the first one has come to,
with the end of the line as a blank behind it, and runs of stages on a grammar compose. So both
ways lead to the same grammar, of which the same outputs are printed. -/
theorem run_command_append {input : String} {g : Grammar} (hg : Grammar.ofJson input = .ok g)
    (stages stages' : List StageWord) {outputs : List Output} (houtputs : outputs ≠ [])
    {options options' : List Setting} (hformat : (Settings.ofOptions options).format = .json)
    (hnaming : (Settings.ofOptions options').naming = (Settings.ofOptions options).naming)
    (hcomplete :
      (g.run (stages.map (StageWord.toStage (Settings.ofOptions options).naming))).Complete)
    (read read' : Source → Option String) (hread : read .standardInput = some input)
    (hread' : read' .standardInput =
      some (run (command stages [.productions] options .standardInput) read).standardOutput) :
    run (command stages' outputs options' .standardInput) read' =
        run (command (stages ++ stages') outputs options' .standardInput) read ∧
      (run (command stages' outputs options' .standardInput) read').exitCode = 0 := by
  have hfirst := run_command stages (List.cons_ne_nil Output.productions [])
    (Source.mayFollow_standardInput options) hread hg
  have hwf := (Grammar.wellFormed_of_ofJson hg).run
    (stages.map (StageWord.toStage (Settings.ofOptions options).naming))
  have hblank : Json.lex "\n".toList = [] := by
    simp [Json.lex, Json.isBlank]
  have hmiddle := hwf.ofJson_json hcomplete hblank
  rw [hfirst, hformat, List.map_singleton, asLines_singleton] at hread'
  have hsecond := run_command stages' houtputs (Source.mayFollow_standardInput options') hread'
    hmiddle
  have hsingle := run_command (stages ++ stages') houtputs
    (Source.mayFollow_standardInput options') hread hg
  rw [hsecond, hsingle, List.map_append, Grammar.run_append, hnaming]
  exact ⟨rfl, rfl⟩

/-- The binary form of the grammar of nested pairs is printed, read again and rid of its empty and
unit alternatives. -/
theorem run_command_append_nested :
    (run ["eps", "unit", "vars", "prod", "-l", "-t", "N"] fun _ =>
        some (run ["bin", "prod", "-j", "-t", "N"] fun _ =>
          some Grammar.nested.json).standardOutput) =
      run ["bin", "eps", "unit", "vars", "prod", "-l", "-t", "N"] fun _ =>
        some Grammar.nested.json := by
  have hfirst : command [.bin] [.productions] [.json, .terminalStem "N"] .standardInput =
      ["bin", "prod", "-j", "-t", "N"] := rfl
  have hsecond : command [.eps, .unit] [.variableTable, .productions] [.latex, .terminalStem "N"]
      .standardInput = ["eps", "unit", "vars", "prod", "-l", "-t", "N"] := rfl
  have hsingle : command ([.bin] ++ [.eps, .unit]) [.variableTable, .productions]
      [.latex, .terminalStem "N"] .standardInput =
        ["bin", "eps", "unit", "vars", "prod", "-l", "-t", "N"] := rfl
  have hcomplete : (Grammar.nested.toGrammar.run ([StageWord.bin].map
      (StageWord.toStage (Settings.ofOptions [.json, .terminalStem "N"]).naming))).Complete :=
    of_decide_eq_true (by cbv)
  rw [← hsingle, ← hsecond, ← hfirst]
  have hnaming : (Settings.ofOptions [.latex, .terminalStem "N"]).naming =
      (Settings.ofOptions [.json, .terminalStem "N"]).naming := rfl
  exact And.left <| run_command_append (Grammar.ofJson_json Grammar.ofDescription_nested) [.bin]
    [.eps, .unit] (List.cons_ne_nil _ _) rfl hnaming hcomplete _ _ rfl rfl

end CommandLine

end ChomskyForm
