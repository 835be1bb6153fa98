import ChomskyForm.Proofs.BinaryAlternatives
import ChomskyForm.Proofs.Trimming
import ChomskyForm.Stage.Attainable

set_option autoImplicit false
set_option relaxedAutoImplicit false

/-!
# Stages in any order

Every stage keeps a grammar well formed, and all but one keep its words in any case. The
exception is the elimination of unit alternatives, which does not hand on an empty alternative of
the start symbol: it keeps the words of purged grammars. A grammar is purged once its empty
alternatives have been eliminated, and no later stage undoes this. So the stages may come in any
order in which empty alternatives are eliminated before unit alternatives are.

## Main definitions

* `ChomskyForm.Stage.Purges`: the stages that lead to purged grammars.
* `ChomskyForm.Grammar.nested`: the description of a small grammar.
* `ChomskyForm.UnitsLater`: the sequences of stages in which empty alternatives are eliminated
  before unit alternatives are.

## Main results

* `ChomskyForm.Stage.wellFormed_apply`: a stage keeps a grammar well formed.
* `ChomskyForm.Stage.purged_apply`: a stage keeps a grammar purged.
* `ChomskyForm.Stage.generates_apply`: a stage keeps the generated words.
* `ChomskyForm.Grammar.Attainable.wellFormed`: attainable grammars are well formed.
* `ChomskyForm.Grammar.wellFormed_run_of_ofDescription`: what every run keeps.
* `ChomskyForm.Grammar.generates_run`: such a sequence of stages keeps the generated words.
-/

namespace ChomskyForm

variable {g : Grammar}

/-! ## Normalization -/

namespace Grammar

/-- Normalization is the binarization of the trimmed grammar, so what is known of both is known of
it. -/
lemma normalize_eq (g : Grammar) (naming : Naming) : g.normalize naming = g.trim.binarize naming :=
  rfl

/-- Normalization keeps the start symbol. -/
@[simp] lemma start_normalize (g : Grammar) (naming : Naming) :
    (g.normalize naming).start = g.start := by
  rw [normalize_eq, start_binarize, start_trim]

/-- Normalization keeps the terminals. -/
@[simp] lemma terminals_normalize (g : Grammar) (naming : Naming) :
    (g.normalize naming).terminals = g.terminals := by
  rw [normalize_eq, terminals_binarize, terminals_trim]

/-- Normalization keeps a grammar well formed, whatever the naming of new variables. -/
lemma wellFormed_normalize (hg : g.WellFormed) (naming : Naming) :
    (g.normalize naming).WellFormed :=
  wellFormed_binarize (wellFormed_trim hg) naming

/-- **A normalized grammar is purged.** A trimmed one is, and the binarization keeps it so. -/
theorem purged_normalize (hg : g.WellFormed) (naming : Naming) : (g.normalize naming).Purged :=
  (purged_trim hg).binarize (wellFormed_trim hg) naming

/-- **Normalization keeps the generated words.** It eliminates empty alternatives before unit
alternatives, so the given grammar need not be purged. -/
theorem generates_normalize (hg : g.WellFormed) (naming : Naming) {w : List Name} :
    (g.normalize naming).Generates [.nonterminal g.start] w ↔
      g.Generates [.nonterminal g.start] w := by
  have hwf := wellFormed_trim hg
  rw [normalize_eq]
  calc (g.trim.binarize naming).Generates [.nonterminal g.start] w
    _ ↔ g.trim.Generates [.nonterminal g.start] w := generates_binarize hwf hwf.start_mem
    _ ↔ g.Generates [.nonterminal g.start] w := generates_trim hg

end Grammar

/-! ## Single stages -/

namespace Stage

/-- **Stages that lead to purged grammars**: those that eliminate empty alternatives. Normalization
is one of them, as it begins with this elimination. -/
def Purges : Stage → Prop
  | eliminateEpsilon => True
  | normalize _ => True
  | _ => False

/-- No stage changes the start symbol. -/
@[simp] lemma start_apply (stage : Stage) (g : Grammar) : (stage.apply g).start = g.start := by
  cases stage <;> rfl

/-- No stage changes the terminals. -/
@[simp] lemma terminals_apply (stage : Stage) (g : Grammar) :
    (stage.apply g).terminals = g.terminals := by
  cases stage <;> rfl

/-- **A stage keeps a grammar well formed.** This is the step of all statements on attainable
grammars: what a stage keeps, every run of stages does. -/
theorem wellFormed_apply (stage : Stage) (hg : g.WellFormed) : (stage.apply g).WellFormed := by
  cases stage with
  | eliminateEpsilon => exact Grammar.wellFormed_eliminateEpsilon hg
  | eliminateUnits => exact Grammar.wellFormed_eliminateUnits hg
  | pruneUnreachable => exact Grammar.wellFormed_restrict hg _
  | pruneUnproductive => exact Grammar.wellFormed_restrict hg _
  | binarize naming => exact Grammar.wellFormed_binarize hg naming
  | normalize naming => exact Grammar.wellFormed_normalize hg naming

/-- **A stage leads to a purged grammar** if it eliminates empty alternatives or if the grammar was
purged before. Each case is the lemma on purged grammars of that stage. -/
theorem purged_apply (stage : Stage) (hg : g.WellFormed) (h : g.Purged ∨ stage.Purges) :
    (stage.apply g).Purged := by
  cases stage with
  | eliminateEpsilon => exact Grammar.purged_eliminateEpsilon hg
  | eliminateUnits => exact (h.resolve_right id).eliminateUnits hg
  | pruneUnreachable => exact (h.resolve_right id).restrict (Grammar.retains_reachable g)
  | pruneUnproductive => exact (h.resolve_right id).restrict (Grammar.retains_productive g)
  | binarize naming => exact (h.resolve_right id).binarize hg naming
  | normalize naming => exact Grammar.purged_normalize hg naming

/-- **A stage keeps the generated words**, unless it is the elimination of unit alternatives and
the grammar is not purged. Each case is the lemma on generated words of that stage. -/
theorem generates_apply (stage : Stage) (hg : g.WellFormed)
    (h : g.Purged ∨ stage ≠ .eliminateUnits) {w : List Name} :
    (stage.apply g).Generates [.nonterminal g.start] w ↔
      g.Generates [.nonterminal g.start] w := by
  cases stage with
  | eliminateEpsilon => exact Grammar.generates_start_eliminateEpsilon hg
  | eliminateUnits => exact (h.resolve_right (· rfl)).generates_eliminateUnits hg
  | pruneUnreachable => exact (Grammar.retains_reachable g).generates_start
  | pruneUnproductive => exact (Grammar.retains_productive g).generates_start
  | binarize naming => exact Grammar.generates_binarize hg hg.start_mem
  | normalize naming => exact Grammar.generates_normalize hg naming

end Stage

/-! ## Attainable grammars -/

namespace Grammar

/-- **Attainable grammars are well formed.** The grammar of an accepted description is, and every
stage keeps it so. -/
theorem Attainable.wellFormed (h : g.Attainable) : g.WellFormed :=
  h.induction (fun _ _ => wellFormed_of_ofDescription) fun _ stage => stage.wellFormed_apply

/-- **Nested pairs**: the description with the alternatives `S → a S b` and `S → ε`. -/
def nested : Description where
  nonterminals := SortedSet.singleton "S"
  terminals := SortedSet.ofList ["a", "b"]
  start := "S"
  productions := SortedMap.ofList [("S", SortedSet.ofList [["a", "S", "b"], ["ε"]])]

/-- The description of nested pairs is accepted. -/
lemma ofDescription_nested : ofDescription nested = .ok nested.toGrammar := rfl

/-- So the grammar of nested pairs is attainable. -/
lemma attainable_nested : nested.toGrammar.Attainable :=
  attainable_of_ofDescription ofDescription_nested

end Grammar

/-! ## Sequences of stages -/

/-- **Empty alternatives first.** Every elimination of unit alternatives comes somewhere after a
stage that eliminates empty alternatives. Other stages may stand anywhere, and any stage may be
repeated. -/
def UnitsLater (stages : List Stage) : Prop :=
  ∀ before after, stages = before ++ .eliminateUnits :: after → ∃ stage ∈ before, stage.Purges

/-- The rest of such a sequence is one too, unless its first stage eliminates empty alternatives:
what comes before an elimination of unit alternatives is then found in the rest. -/
lemma UnitsLater.tail {stage : Stage} {stages : List Stage} (h : UnitsLater (stage :: stages))
    (hstage : ¬ stage.Purges) : UnitsLater stages := by
  intro before after heq
  obtain ⟨stage', hmem, hpurges⟩ := h (stage :: before) after (by rw [heq]; rfl)
  rcases List.mem_cons.1 hmem with rfl | hmem
  · exact absurd hpurges hstage
  · exact ⟨stage', hmem, hpurges⟩

/-- A sequence that begins with a stage that eliminates empty alternatives is one of these,
whatever follows. -/
lemma unitsLater_cons (stage : Stage) (hstage : stage.Purges) (stages : List Stage) :
    UnitsLater (stage :: stages) := by
  intro before after heq
  cases before with
  | nil =>
    obtain rfl := (List.cons.inj heq).1
    exact absurd hstage id
  | cons first before =>
    obtain rfl := (List.cons.inj heq).1
    exact ⟨stage, List.mem_cons_self, hstage⟩

/-- Such a sequence does not begin with the elimination of unit alternatives. -/
lemma UnitsLater.head_ne {stage : Stage} {stages : List Stage} (h : UnitsLater (stage :: stages)) :
    stage ≠ .eliminateUnits := by
  rintro rfl
  obtain ⟨stage', hmem, -⟩ := h [] stages rfl
  cases hmem

namespace Grammar

/-- Stages keep a grammar well formed, by induction on the stages. -/
lemma WellFormed.run (hg : g.WellFormed) (stages : List Stage) : (g.run stages).WellFormed := by
  induction stages generalizing g with
  | nil => exact hg
  | cons stage stages ih => exact ih (stage.wellFormed_apply hg)

/-- No stages change the start symbol, in whatever order they come. -/
@[simp] lemma start_run (g : Grammar) (stages : List Stage) : (g.run stages).start = g.start := by
  induction stages generalizing g with
  | nil => rfl
  | cons stage stages ih => exact (ih (stage.apply g)).trans (stage.start_apply g)

/-- No stages change the terminals, even if some of them do not occur any more. -/
@[simp] lemma terminals_run (g : Grammar) (stages : List Stage) :
    (g.run stages).terminals = g.terminals := by
  induction stages generalizing g with
  | nil => rfl
  | cons stage stages ih => exact (ih (stage.apply g)).trans (stage.terminals_apply g)

/-- **What every run keeps.** Whatever stages are applied to the grammar of an accepted
description, the result is well formed and has the described start symbol and terminals: the start
symbol and all left-hand sides are variables, no name is both a variable and a terminal, none is
the reserved one, and every symbol of an alternative is a declared variable or a declared terminal.
In particular no mark of the empty word is left in an alternative.

**Proof sketch.** The grammar of an accepted description is well formed, and every stage keeps it
so. The rest is read off the fields of well-formedness. -/
theorem wellFormed_run_of_ofDescription {d : Description} (hd : ofDescription d = .ok g)
    (stages : List Stage) :
    (g.run stages).WellFormed ∧ (g.run stages).start = d.start ∧
      (g.run stages).terminals = d.terminals ∧
      ∀ v, ∀ right ∈ (g.run stages).alternatives v, ∀ s ∈ right,
        (∃ u ∈ (g.run stages).nonterminals, s = .nonterminal u) ∨
          ∃ a ∈ (g.run stages).terminals, s = .terminal a := by
  have hrun := (wellFormed_of_ofDescription hd).run stages
  obtain ⟨-, rfl⟩ := ofDescription_eq_ok.1 hd
  refine ⟨hrun, start_run _ stages, terminals_run _ stages, fun v right hr s hs => ?_⟩
  have hdeclared := hrun.declares v right hr s hs
  cases s with
  | terminal a => exact .inr ⟨a, hdeclared, rfl⟩
  | nonterminal u => exact .inl ⟨u, hdeclared, rfl⟩
  | epsilon => exact absurd hdeclared id

/-- What a run keeps of the grammar of nested pairs: new variables are drawn with the stem `S`, and
the variables that are of no use are removed after all others. -/
theorem wellFormed_run_nested :
    ofDescription nested = .ok nested.toGrammar ∧
      (nested.toGrammar.run [.binarize ⟨"S", "S", 0⟩, .eliminateUnits, .eliminateEpsilon,
        .pruneUnproductive]).WellFormed ∧
      (nested.toGrammar.run [.binarize ⟨"S", "S", 0⟩, .eliminateUnits, .eliminateEpsilon,
        .pruneUnproductive]).start = "S" :=
  ⟨ofDescription_nested, (wellFormed_run_of_ofDescription ofDescription_nested _).1,
    (wellFormed_run_of_ofDescription ofDescription_nested _).2.1⟩

/-- **Stages keep the generated words**, if the grammar is purged or empty alternatives are
eliminated before unit alternatives are.

**Proof sketch.** Induction on the stages. What is left of the sequence after its first stage meets
a purged grammar if this stage eliminates empty alternatives or the grammar was purged before;
otherwise it still has the elimination of empty alternatives in front. -/
theorem generates_run (hg : g.WellFormed) {stages : List Stage}
    (h : g.Purged ∨ UnitsLater stages) {w : List Name} :
    (g.run stages).Generates [.nonterminal g.start] w ↔ g.Generates [.nonterminal g.start] w := by
  induction stages generalizing g with
  | nil => exact .rfl
  | cons stage stages ih =>
    have hrest : (stage.apply g).Purged ∨ UnitsLater stages := by
      by_cases hstage : stage.Purges
      · exact .inl (stage.purged_apply hg (.inr hstage))
      · exact h.imp (fun h => stage.purged_apply hg (.inl h)) fun h => h.tail hstage
    have hfirst := stage.generates_apply hg (h.imp_right UnitsLater.head_ne) (w := w)
    have hlater := ih (stage.wellFormed_apply hg) hrest
    rw [stage.start_apply] at hlater
    exact hlater.trans hfirst

/-- **Free orders of stages.** The stages may come in any order in which empty alternatives are
eliminated before unit alternatives are: the start symbol derives the same words as before. For
well-formed grammars, to derive a word is to generate it, so this is `generates_run`. -/
theorem derives_run_iff {d : Description} (hd : ofDescription d = .ok g) {stages : List Stage}
    (h : UnitsLater stages) (w : List Name) :
    g.Derives [.nonterminal g.start] (w.map .terminal) ↔
      (g.run stages).Derives [.nonterminal (g.run stages).start] (w.map .terminal) := by
  have hg := wellFormed_of_ofDescription hd
  rw [← hg.generates_iff_derives, ← (hg.run stages).generates_iff_derives, start_run]
  exact (generates_run hg (.inr h)).symm

/-- A free order of stages for the grammar of nested pairs. -/
theorem derives_run_iff_nested :
    UnitsLater [.eliminateEpsilon, .pruneUnreachable, .eliminateUnits, .binarize {}] ∧
      (nested.toGrammar.Derives [.nonterminal "S"] [.terminal "a", .terminal "b"] ↔
        (nested.toGrammar.run
          [.eliminateEpsilon, .pruneUnreachable, .eliminateUnits, .binarize {}]).Derives
            [.nonterminal "S"] [.terminal "a", .terminal "b"]) :=
  ⟨unitsLater_cons .eliminateEpsilon trivial _,
    derives_run_iff ofDescription_nested (unitsLater_cons .eliminateEpsilon trivial _) ["a", "b"]⟩

end Grammar

end ChomskyForm
