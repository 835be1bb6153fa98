import ChomskyForm.Proofs.NormalForm
import ChomskyForm.Proofs.Recognition
import ChomskyForm.Proofs.SpanTable

set_option autoImplicit false
set_option relaxedAutoImplicit false

/-!
# Normalization keeps the language

A normalized grammar derives the same words, and recognition by a table gives the right answer for
it: it is purged, so the table, which disregards empty alternatives, misses no word. Hence the
answers for the normalized grammar are those of Earley recognition for the grammar it comes from.

## Main results

* `ChomskyForm.Grammar.cykAccepts_normalize`: recognition by a table for a normalized grammar.
* `ChomskyForm.Grammar.Attainable.normalize_language`: normalization keeps the language.
-/

namespace ChomskyForm

namespace Grammar

variable {g : Grammar}

/-- **Recognition by a table for a normalized grammar** has an answer, and tells whether the
grammar that it comes from generates the word. The normalized grammar is purged, so the table,
which disregards empty alternatives, misses no word. -/
theorem cykAccepts_normalize (hg : g.WellFormed) (naming : Naming) (word : List Name) :
    ∃ answer, (g.normalize naming).cykAccepts word = some answer ∧
      (answer = true ↔ g.Generates [.nonterminal g.start] word) := by
  have hwf := wellFormed_normalize hg naming
  obtain ⟨answer, hanswer, hiff⟩ :=
    (purged_normalize hg naming).cykAccepts_spec hwf (isNormal_normalize hg naming) word
  rw [start_normalize] at hiff
  exact ⟨answer, hanswer, hiff.trans (generates_normalize hg naming)⟩

/-- **Normalization keeps the language.** The normalized grammar derives the same words,
recognition by a table tells for it which words these are, and does so as Earley recognition for
the grammar before.

**Proof sketch.** All four parts are about one answer, that of the table for the normalized
grammar, which tells whether the grammar before generates the word (`cykAccepts_normalize`). In
well-formed grammars generation is derivation, and Earley recognition decides generation for any
grammar. -/
theorem Attainable.normalize_language (h : g.Attainable) (naming : Naming) (word : List Name) :
    (g.Derives [.nonterminal g.start] (word.map .terminal) ↔
      (g.normalize naming).Derives [.nonterminal (g.normalize naming).start]
        (word.map .terminal)) ∧
    (g.Derives [.nonterminal g.start] (word.map .terminal) →
      (g.normalize naming).cykAccepts word = some true) ∧
    (¬ g.Derives [.nonterminal g.start] (word.map .terminal) →
      (g.normalize naming).cykAccepts word = some false) ∧
    (g.normalize naming).cykAccepts word = some (g.derives word) := by
  have hg := h.wellFormed
  have hwf := wellFormed_normalize hg naming
  obtain ⟨answer, hanswer, hiff⟩ := cykAccepts_normalize hg naming word
  rw [start_normalize, ← hwf.generates_iff_derives, ← hg.generates_iff_derives, hanswer]
  refine ⟨(generates_normalize hg naming).symm, fun hgen => ?_, fun hgen => ?_, ?_⟩
  · rw [hiff.2 hgen]
  · rw [Bool.eq_false_iff.2 fun htrue => hgen (hiff.1 htrue)]
  · rw [Bool.eq_iff_iff.2 (hiff.trans (derives_eq_true g word).symm)]

/-- The language of the grammar of nested pairs is kept. -/
theorem normalize_language_nested :
    nested.toGrammar.Attainable ∧
      (nested.toGrammar.normalize {}).cykAccepts ["a", "b"] =
        some (nested.toGrammar.derives ["a", "b"]) :=
  ⟨attainable_nested, (Attainable.normalize_language attainable_nested {} ["a", "b"]).2.2.2⟩

end Grammar

end ChomskyForm
