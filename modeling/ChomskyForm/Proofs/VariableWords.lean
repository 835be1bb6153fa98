import ChomskyForm.Proofs.Idempotence

set_option autoImplicit false
set_option relaxedAutoImplicit false

/-!
# The words of every variable

Most stages keep more than the words of the start symbol: they keep those of every variable. The
elimination of empty alternatives keeps them apart from the empty word, which only the start symbol
keeps. The binarization keeps them all, whatever the new variables are called.

## Main results

* `ChomskyForm.Grammar.Attainable.eliminateEpsilon_exact`: what the elimination of empty
  alternatives keeps, and which empty alternatives it leaves.
* `ChomskyForm.Grammar.Attainable.binarize_exact`: the binarization keeps the words of every
  variable and leads to a binary grammar.
-/

namespace ChomskyForm

namespace Grammar

variable {g : Grammar}

/-! ## Empty alternatives -/

/-- **The elimination of empty alternatives is exact for every variable.** In an attainable
grammar, every variable derives the same words as before, apart from the empty word. The start
symbol derives the empty word exactly if it did so before. No empty alternative is left but that of
the start symbol, which is there exactly when the start symbol was nullable. The set of nullable
variables is the one that was found before the elimination.

**Proof sketch.** The three parts are known of well-formed grammars in terms of generation, which
is derivation for them; and a variable is nullable exactly if it generates the empty word. -/
theorem Attainable.eliminateEpsilon_exact (h : g.Attainable) :
    (∀ (v : Name) (w : List Name), w ≠ [] →
      (g.eliminateEpsilon.Derives [.nonterminal v] (w.map .terminal) ↔
        g.Derives [.nonterminal v] (w.map .terminal))) ∧
    (g.eliminateEpsilon.Derives [.nonterminal g.eliminateEpsilon.start] [] ↔
      g.Derives [.nonterminal g.start] []) ∧
    ∀ v, [] ∈ g.eliminateEpsilon.alternatives v ↔ v = g.start ∧ v ∈ g.nullable := by
  have hg := h.wellFormed
  have hwf := wellFormed_eliminateEpsilon hg
  refine ⟨fun v w hw => ?_, ?_, fun v => ?_⟩
  · exact hwf.derives_congr hg (generates_eliminateEpsilon hw)
  · exact hwf.derives_congr hg (w := []) (generates_start_eliminateEpsilon hg)
  · rw [nil_mem_alternatives_eliminateEpsilon hg, mem_nullable]
    exact and_congr_right fun hv => by rw [hv]

/-- The elimination of empty alternatives from the grammar of nested pairs, whose start symbol is
nullable and occurs in its own alternative. -/
theorem eliminateEpsilon_exact_nested :
    nested.toGrammar.Attainable ∧ ["a", "b"] ≠ [] ∧
      (nested.toGrammar.eliminateEpsilon.Derives [.nonterminal "S"] [.terminal "a", .terminal "b"] ↔
        nested.toGrammar.Derives [.nonterminal "S"] [.terminal "a", .terminal "b"]) ∧
      ([] ∈ nested.toGrammar.eliminateEpsilon.alternatives "S" ↔
        "S" ∈ nested.toGrammar.nullable) :=
  ⟨attainable_nested, List.cons_ne_nil _ _,
    (Attainable.eliminateEpsilon_exact attainable_nested).1 "S" ["a", "b"] (List.cons_ne_nil _ _),
    ((Attainable.eliminateEpsilon_exact attainable_nested).2.2 "S").trans (and_iff_right rfl)⟩

/-! ## Binary alternatives -/

/-- **The binarization is exact for every variable.** Whatever the naming of new variables, every
variable of an attainable grammar derives the same words as before, and every alternative that there
is afterwards has less than two symbols or is a pair of variables. -/
theorem Attainable.binarize_exact (h : g.Attainable) (naming : Naming) :
    (∀ v ∈ g.nonterminals, ∀ w : List Name,
      (g.binarize naming).Derives [.nonterminal v] (w.map .terminal) ↔
        g.Derives [.nonterminal v] (w.map .terminal)) ∧
    (g.binarize naming).Binary := by
  have hg := h.wellFormed
  refine ⟨fun v hv w => ?_, binary_binarize hg naming⟩
  exact (wellFormed_binarize hg naming).derives_congr hg (generates_binarize hg hv)

/-- The binarization of the grammar of nested pairs, with new variables that are named like the
start symbol. -/
theorem binarize_exact_nested :
    nested.toGrammar.Attainable ∧ "S" ∈ nested.toGrammar.nonterminals ∧
      ((nested.toGrammar.binarize ⟨"S", "S", 0⟩).Derives [.nonterminal "S"]
          [.terminal "a", .terminal "b"] ↔
        nested.toGrammar.Derives [.nonterminal "S"] [.terminal "a", .terminal "b"]) ∧
      (nested.toGrammar.binarize ⟨"S", "S", 0⟩).Binary :=
  have hexact := Attainable.binarize_exact attainable_nested ⟨"S", "S", 0⟩
  ⟨attainable_nested, by decide, hexact.1 "S" (by decide) ["a", "b"], hexact.2⟩

end Grammar

end ChomskyForm
