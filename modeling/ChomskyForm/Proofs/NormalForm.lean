import ChomskyForm.Proofs.StageOrder

set_option autoImplicit false
set_option relaxedAutoImplicit false

/-!
# What normalization guarantees

The shape of a normalized grammar, and what its parts have to do with the grammar that it comes
from. Its variables are all of use, if there is any word to generate; if there is none, only the
start symbol is left.

## Main results

* `ChomskyForm.Grammar.isNormal_normalize`: normalization leads to Chomsky normal form.
* `ChomskyForm.Grammar.nil_mem_normalize`: the start symbol has an empty alternative exactly when
  the empty word is generated.
* `ChomskyForm.Grammar.reachable_normalize`, `ChomskyForm.Grammar.productive_normalize`: all
  variables are reachable, and productive if any word is generated.
* `ChomskyForm.Grammar.nonterminals_normalize`, `ChomskyForm.Grammar.productions_normalize`: the
  start symbol alone is left, without productions, if no word is.
-/

namespace ChomskyForm

namespace Grammar

variable {g : Grammar}

/-! ## The normalized grammar -/

section Normalize

variable (hg : g.WellFormed) (naming : Naming)

include hg

/-- **Normalization leads to Chomsky normal form.** Before the binarization there are no unit
alternatives, and only the start symbol has an empty one. -/
theorem isNormal_normalize : (g.normalize naming).isNormal = true :=
  isNormal_binarize (wellFormed_trim hg) unit_notMem_trim (purged_trim hg).eq_start

/-- **The empty alternative.** The start symbol has one exactly when the empty word is generated,
since a purged grammar generates the empty word by it alone. -/
theorem nil_mem_normalize :
    [] ∈ (g.normalize naming).alternatives g.start ↔ g.Generates [.nonterminal g.start] [] := by
  have hnil := (purged_normalize hg naming).generates_nil_iff (wellFormed_normalize hg naming)
  rw [start_normalize] at hnil
  exact hnil.symm.trans (generates_normalize hg naming)

/-- **All variables are reachable**, also those that are new. Before the binarization all are,
because unreachable ones are removed last. -/
theorem reachable_normalize : (g.normalize naming).reachable = (g.normalize naming).nonterminals :=
  SortedSet.ext fun _ => ⟨mem_nonterminals_of_reachable (wellFormed_normalize hg naming),
    reachable_binarize (wellFormed_trim hg) fun _ => reachable_trim⟩

/-- **All variables are productive**, if the start symbol generates a word. Otherwise the start
symbol is left, and is not productive. -/
theorem productive_normalize {w : List Name} (hw : g.Generates [.nonterminal g.start] w) :
    (g.normalize naming).productive = (g.normalize naming).nonterminals :=
  SortedSet.ext fun _ => ⟨mem_nonterminals_of_productive (wellFormed_normalize hg naming),
    productive_binarize (wellFormed_trim hg) fun _ => productive_trim hg hw⟩

/-- **Without words, no production is left**: the start symbol is not productive, so it has lost
its alternatives, and it leads to no other variable. -/
theorem productions_normalize (h : ∀ w, ¬ g.Generates [.nonterminal g.start] w) :
    (g.normalize naming).productions = ∅ := by
  have hempty := productions_trim hg h
  rw [normalize_eq, binarize, hempty]
  rfl

/-- **Without words, only the start symbol is left**, and a binarization adds no variable where
there are no productions. -/
theorem nonterminals_normalize (h : ∀ w, ¬ g.Generates [.nonterminal g.start] w) :
    (g.normalize naming).nonterminals = SortedSet.singleton g.start := by
  have hempty := productions_trim hg h
  rw [normalize_eq, binarize, hempty]
  exact nonterminals_trim hg h

end Normalize

/-- **The normal form of an attainable grammar.** It is in Chomsky normal form and has the start
symbol and the terminals of the grammar; its start symbol has an empty alternative exactly when the
grammar derives the empty word; if the grammar derives any word, all variables are reachable,
productive and have an alternative; if it derives none, the start symbol is the only variable and
there are no productions.

**Proof sketch.** Each part is known of well-formed grammars, in terms of generation; attainable
grammars are well formed, and for them generation and derivation agree. That all variables have
alternatives follows from their being productive. -/
theorem Attainable.normalForm (h : g.Attainable) (naming : Naming) :
    (g.normalize naming).isNormal = true ∧
    (g.normalize naming).start = g.start ∧
    (g.normalize naming).terminals = g.terminals ∧
    ([] ∈ (g.normalize naming).alternatives (g.normalize naming).start ↔
      g.Derives [.nonterminal g.start] []) ∧
    ((∃ w : List Name, g.Derives [.nonterminal g.start] (w.map .terminal)) →
      (g.normalize naming).reachable = (g.normalize naming).nonterminals ∧
      (g.normalize naming).productive = (g.normalize naming).nonterminals ∧
      ∀ v ∈ (g.normalize naming).nonterminals,
        ∃ right, right ∈ (g.normalize naming).alternatives v) ∧
    ((¬ ∃ w : List Name, g.Derives [.nonterminal g.start] (w.map .terminal)) →
      (g.normalize naming).nonterminals = SortedSet.singleton g.start ∧
      (g.normalize naming).productions = ∅) := by
  have hg := h.wellFormed
  refine ⟨isNormal_normalize hg naming, start_normalize g naming, terminals_normalize g naming,
    ?_, ?_, ?_⟩
  · rw [start_normalize]
    exact (nil_mem_normalize hg naming).trans hg.generates_iff_derives
  · rintro ⟨w, hw⟩
    have hproductive := productive_normalize hg naming (hg.generates_iff_derives.2 hw)
    refine ⟨reachable_normalize hg naming, hproductive, fun v hv => ?_⟩
    rw [← hproductive] at hv
    exact exists_alternative_of_productive hv
  · intro hnone
    have hwords : ∀ w, ¬ g.Generates [.nonterminal g.start] w :=
      fun w hw => hnone ⟨w, hg.generates_iff_derives.1 hw⟩
    exact ⟨nonterminals_normalize hg naming hwords, productions_normalize hg naming hwords⟩

/-- The normal form of the grammar of nested pairs. -/
theorem normalForm_nested :
    nested.toGrammar.Attainable ∧ (nested.toGrammar.normalize {}).isNormal = true ∧
      ([] ∈ (nested.toGrammar.normalize {}).alternatives "S" ↔
        nested.toGrammar.Derives [.nonterminal "S"] []) :=
  ⟨attainable_nested, (Attainable.normalForm attainable_nested {}).1,
    (Attainable.normalForm attainable_nested {}).2.2.2.1⟩

end Grammar

end ChomskyForm
