import Mathlib.Data.List.Permutation
import ChomskyForm.Proofs.StageOrder

set_option autoImplicit false
set_option relaxedAutoImplicit false

/-!
# The analyses are exact

What the analyses of an attainable grammar find, in terms of its derivations: the nullable
variables are those from which the empty word can be derived, and the productive ones those from
which some word of terminals can. Both sets are found by counting; that the count ends with the
least set which obeys the alternatives is shown for clauses of any kind.

## Main definitions

* `ChomskyForm.Grammar.doubling`: the description of a small grammar with repeated variables.

## Main results

* `ChomskyForm.Grammar.WellFormed.mem_nullable_iff`,
  `ChomskyForm.Grammar.WellFormed.mem_productive_iff`: what the two saturations find in a
  well-formed grammar.
* `ChomskyForm.Grammar.Attainable.saturation_exact`: both of them, for attainable grammars.
-/

namespace ChomskyForm

namespace Grammar

variable {g : Grammar} {v : Name}

/-! ## Nullable and productive variables -/

/-- Derived words consist of declared terminals, since declared symbols stay declared along a
derivation. -/
lemma WellFormed.mem_terminals_of_derives (hg : g.WellFormed) (hv : v ∈ g.nonterminals)
    {w : List Name} (hder : g.Derives [.nonterminal v] (w.map .terminal)) :
    ∀ a ∈ w, a ∈ g.terminals := by
  have hdeclared := hg.declares_of_derives hder fun s hs => by
    rw [List.mem_singleton.1 hs]
    exact hv
  exact fun a ha => hdeclared (.terminal a) (List.mem_map_of_mem ha)

/-- **Nullable variables** are those from which the empty word can be derived; all of them are
declared, because they have an alternative. -/
theorem WellFormed.mem_nullable_iff (hg : g.WellFormed) :
    v ∈ g.nullable ↔ v ∈ g.nonterminals ∧ g.Derives [.nonterminal v] [] := by
  have hwords : g.Generates [.nonterminal v] [] ↔ g.Derives [.nonterminal v] [] :=
    hg.generates_iff_derives
  rw [mem_nullable, ← hwords]
  refine (and_iff_right_of_imp fun hw => ?_).symm
  exact mem_nonterminals_of_productive hg (mem_productive.2 ⟨[], hw⟩)

/-- **Productive variables** are those from which a word of terminals can be derived.

**Proof sketch.** The search finds the names that generate some word (`mem_productive`). Such a
name has an alternative, so it is a variable, and the word is derived and consists of declared
terminals. -/
theorem WellFormed.mem_productive_iff (hg : g.WellFormed) :
    v ∈ g.productive ↔ v ∈ g.nonterminals ∧ ∃ w : List Name, (∀ a ∈ w, a ∈ g.terminals) ∧
      g.Derives [.nonterminal v] (w.map .terminal) := by
  constructor
  · intro hproductive
    have hv := mem_nonterminals_of_productive hg hproductive
    obtain ⟨w, hw⟩ := mem_productive.1 hproductive
    have hder := hg.generates_iff_derives.1 hw
    exact ⟨hv, w, hg.mem_terminals_of_derives hv hder, hder⟩
  · rintro ⟨-, w, -, hder⟩
    exact mem_productive.2 ⟨w, hg.generates_iff_derives.2 hder⟩

/-- **The saturations are exact.** In an attainable grammar the nullable variables are those from
which the empty word can be derived, and the productive ones those from which some word of
terminals can. In each case every name that is found is a variable. -/
theorem Attainable.saturation_exact (h : g.Attainable) :
    (∀ v, v ∈ g.nullable ↔ v ∈ g.nonterminals ∧ g.Derives [.nonterminal v] []) ∧
    ∀ v, v ∈ g.productive ↔ v ∈ g.nonterminals ∧ ∃ w : List Name, (∀ a ∈ w, a ∈ g.terminals) ∧
      g.Derives [.nonterminal v] (w.map .terminal) :=
  ⟨fun _ => h.wellFormed.mem_nullable_iff, fun _ => h.wellFormed.mem_productive_iff⟩

/-- **Doubling**: the description with the alternatives `S → S S`, `S → A A`, `A → a`, `A → ε` and
`B → B B`. -/
def doubling : Description where
  nonterminals := SortedSet.ofList ["S", "A", "B"]
  terminals := SortedSet.singleton "a"
  start := "S"
  productions := SortedMap.ofList
    [("S", SortedSet.ofList [["S", "S"], ["A", "A"]]), ("A", SortedSet.ofList [["a"], ["ε"]]),
      ("B", SortedSet.singleton ["B", "B"])]

/-- The grammar of doubling is attainable. -/
lemma attainable_doubling : doubling.toGrammar.Attainable :=
  attainable_of_ofDescription (d := doubling) rfl

/-- The saturations of the grammar of doubling: the empty word can be derived from `S`, through a
variable that occurs twice, and no word at all from `B`. -/
theorem saturation_exact_doubling :
    doubling.toGrammar.Attainable ∧ doubling.toGrammar.Derives [.nonterminal "S"] [] ∧
      ¬ ∃ w : List Name, doubling.toGrammar.Derives [.nonterminal "B"] (w.map .terminal) := by
  have hexact := Attainable.saturation_exact attainable_doubling
  have hnullable : "S" ∈ doubling.toGrammar.nullable := of_decide_eq_true (by cbv)
  have hproductive : "B" ∉ doubling.toGrammar.productive := of_decide_eq_false (by cbv)
  refine ⟨attainable_doubling, ((hexact.1 "S").1 hnullable).2, ?_⟩
  rintro ⟨w, hder⟩
  have hv : "B" ∈ doubling.toGrammar.nonterminals := by decide
  have hterminals := attainable_doubling.wellFormed.mem_terminals_of_derives hv hder
  exact hproductive ((hexact.2 "B").2 ⟨hv, w, hterminals, hder⟩)

end Grammar

end ChomskyForm
