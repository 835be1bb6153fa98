import ChomskyForm.Grammar.Derivation
import ChomskyForm.Grammar.Description

set_option autoImplicit false
set_option relaxedAutoImplicit false

/-!
# Well-formed grammars

The conditions that the parts of a grammar have to meet for it to make sense. They are what
validation checks, with one exception: a variable may be without alternatives.

## Main definitions

* `ChomskyForm.Grammar.Declares`: the symbols that may stand in a right-hand side.
* `ChomskyForm.Grammar.WellFormed`: well-formed grammars.

## Main results

* `ChomskyForm.Grammar.wellFormed_of_ofDescription`: an accepted description describes a well-formed
  grammar.
* `ChomskyForm.Grammar.WellFormed.generates_iff_derives`: in a well-formed grammar, a variable
  generates exactly the words that can be derived from it.
-/

namespace ChomskyForm

namespace Grammar

/-- **Declared symbols.** The mark for the empty word is not one of them: an alternative of a
well-formed grammar holds terminals and variables only, and the empty word is the empty
alternative. -/
def Declares (g : Grammar) : Symbol → Prop
  | .terminal a => a ∈ g.terminals
  | .nonterminal v => v ∈ g.nonterminals
  | .epsilon => False

/-- **Well-formed grammars.** Five conditions on the declarations and one on the alternatives. A
variable may be without alternatives, with or without an entry, since the removal of useless
symbols leaves such a start symbol behind. -/
structure WellFormed (g : Grammar) : Prop where
  /-- The start symbol is a variable. -/
  start_mem : g.start ∈ g.nonterminals
  /-- No name is both a variable and a terminal. -/
  disjoint : ∀ v ∈ g.nonterminals, v ∉ g.terminals
  /-- The reserved name is not a variable. -/
  unreserved_nonterminals : epsilonName ∉ g.nonterminals
  /-- The reserved name is not a terminal. -/
  unreserved_terminals : epsilonName ∉ g.terminals
  /-- Every left-hand side is a variable. -/
  left_mem : ∀ v ∈ g.productions.keys, v ∈ g.nonterminals
  /-- Every symbol of an alternative is declared. -/
  declares : ∀ v, ∀ right ∈ g.alternatives v, ∀ s ∈ right, g.Declares s

variable {g : Grammar}

/-- In a well-formed grammar whatever has an alternative is a variable. -/
theorem WellFormed.mem_nonterminals (h : g.WellFormed) {v : Name} {right : List Symbol}
    (hr : right ∈ g.alternatives v) : v ∈ g.nonterminals :=
  h.left_mem v (mem_keys_of_mem_alternatives hr)

/-- In a well-formed grammar no alternative holds the mark for the empty word. -/
theorem WellFormed.epsilon_notMem (h : g.WellFormed) {v : Name} {right : List Symbol}
    (hr : right ∈ g.alternatives v) : .epsilon ∉ right :=
  fun hm => h.declares v right hr .epsilon hm

/-- In a well-formed grammar a variable generates exactly the words that can be derived from it. -/
theorem WellFormed.generates_iff_derives (h : g.WellFormed) {v : Name} {w : List Name} :
    g.Generates [.nonterminal v] w ↔ g.Derives [.nonterminal v] (w.map .terminal) :=
  Grammar.generates_iff_derives (fun _ _ hr => h.epsilon_notMem hr) (by simp)

/-! ## Accepted descriptions -/

/-- A description violates no condition exactly when none of the six searches finds a violation. -/
theorem violation?_eq_none {d : Description} :
    d.violation? = none ↔ d.reservedName? = none ∧ d.overlappingName? = none ∧
      d.unknownStart? = none ∧ d.undeclaredVariable? = none ∧ d.undeclaredSymbol? = none ∧
      d.emptyProductionSet? = none := by
  simp [Description.violation?]

/-- The alternatives of the described grammar are the given right-hand sides, read as symbols. -/
theorem mem_alternatives_toGrammar {d : Description} {v : Name} {right : List Symbol} :
    right ∈ d.toGrammar.alternatives v ↔ ∃ names ∈ d.rightsOf v,
      names.filterMap d.symbol? = right := by
  simp only [mem_alternatives, Description.toGrammar, SortedMap.get?_mapValues,
    Description.rightsOf]
  cases d.productions.get? v <;> simp

/-- **Where no undeclared symbol is found, there is none**: every name of a right-hand side is
declared.

**Proof sketch.** The search goes through all entries, through all right-hand sides of an entry and
through all names of a right-hand side. A search that finds nothing has passed each of them. -/
theorem declares_of_undeclaredSymbol? {d : Description} (h : d.undeclaredSymbol? = none)
    {v : Name} {names : List Name} (hn : names ∈ d.rightsOf v) {name : Name}
    (hm : name ∈ names) : d.declares name = true := by
  unfold Description.rightsOf at hn
  cases hv : d.productions.get? v with
  | none => simp [hv] at hn
  | some rights =>
    simp only [hv, Option.getD_some] at hn
    unfold Description.undeclaredSymbol? at h
    rw [List.findSome?_eq_none_iff] at h
    have hrights := h (v, rights) (SortedMap.mem_toList.2 hv)
    rw [List.findSome?_eq_none_iff] at hrights
    have hname := hrights names hn
    rw [Option.map_eq_none_iff, List.find?_eq_none] at hname
    simpa using hname name hm

/-- **An accepted description describes a well-formed grammar.**

**Proof sketch.** The first four conditions of validation are those of well-formedness, with the
reserved name spared by variables and terminals alike. For the symbols of an alternative, such a
symbol comes from a name of a right-hand side that is not the reserved one; the name is declared,
and it has become a nonterminal or a terminal according to where. -/
theorem wellFormed_of_ofDescription {d : Description} (h : ofDescription d = .ok g) :
    g.WellFormed := by
  obtain ⟨hviolation, rfl⟩ := ofDescription_eq_ok.1 h
  obtain ⟨hreserved, hoverlap, hstart, hleft, hsymbol, _⟩ := violation?_eq_none.1 hviolation
  have hfree : ∀ name, name ∈ d.nonterminals ∨ name ∈ d.terminals → name ≠ epsilonName := by
    simpa [Description.reservedName?, SortedSet.mem_def, or_imp, forall_and] using hreserved
  refine ⟨?_, ?_, ?_, ?_, ?_, ?_⟩
  · simpa [Description.unknownStart?, Description.toGrammar] using hstart
  · simpa [Description.overlappingName?, Description.toGrammar, SortedSet.mem_def] using hoverlap
  · exact fun hm => hfree _ (.inl hm) rfl
  · exact fun hm => hfree _ (.inr hm) rfl
  · simpa [Description.undeclaredVariable?, SortedSet.mem_def, Description.toGrammar]
      using hleft
  · intro v right hr s hs
    obtain ⟨names, hn, rfl⟩ := mem_alternatives_toGrammar.1 hr
    obtain ⟨name, hm, hsym⟩ := List.mem_filterMap.1 hs
    have hdeclared := declares_of_undeclaredSymbol? hsymbol hn hm
    unfold Description.symbol? at hsym
    split at hsym
    · cases hsym
    · split at hsym
      · next hv =>
        cases hsym
        exact hv
      · next hne hv =>
        cases hsym
        have : name = epsilonName ∨ name ∈ d.nonterminals ∨ name ∈ d.terminals :=
          of_decide_eq_true hdeclared
        exact (this.resolve_left hne).resolve_left hv

end Grammar

end ChomskyForm
