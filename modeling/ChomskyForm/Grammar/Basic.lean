import ChomskyForm.Sorted.Map
import ChomskyForm.Symbol

set_option autoImplicit false
set_option relaxedAutoImplicit false

/-!
# Context-free grammars

A grammar has variables, terminals, a start symbol and, for some of its variables, a set of
alternatives: the right-hand sides that may replace the variable. The empty word is the empty
alternative. A variable without an entry and a variable whose entry is the empty set have the
same alternatives, namely none, but they are told apart.

## Main definitions

* `ChomskyForm.Grammar`: grammars.
* `ChomskyForm.Grammar.alternatives`: the alternatives of a variable.
* `ChomskyForm.Grammar.rules`: all productions, one by one.
* `ChomskyForm.Grammar.restrict`: the part of a grammar over some of its variables.

## Main results

* `ChomskyForm.Grammar.ext_of_mem`: when two grammars are equal.
* `ChomskyForm.Grammar.mem_rules`: a rule of the grammar is an alternative of its left-hand side.
* `ChomskyForm.Grammar.mem_alternatives_restrict`: the alternatives that a restriction keeps.
-/

namespace ChomskyForm

/-- **Grammars.** Nothing is assumed here about how the four parts fit together; that is a property
of its own (`WellFormed`), which validation establishes and every stage keeps. -/
structure Grammar where
  /-- The names that may be replaced. -/
  nonterminals : SortedSet Name
  /-- The letters of the words. -/
  terminals : SortedSet Name
  /-- The variable that words are generated from. -/
  start : Name
  /-- The alternatives, by left-hand side. -/
  productions : SortedMap Name (SortedSet (List Symbol))
deriving DecidableEq

/-- **Rules**: single productions, one right-hand side for one left-hand side. -/
structure Rule where
  /-- The variable that is replaced. -/
  left : Name
  /-- What it is replaced by. -/
  right : List Symbol
deriving DecidableEq, Repr, Inhabited

namespace Grammar

variable {g : Grammar}

/-! ## Alternatives and rules -/

/-- **The alternatives of a variable**; there are none for a name without an entry. A missing entry
and an empty one are told apart by `productions` only. -/
def alternatives (g : Grammar) (v : Name) : SortedSet (List Symbol) :=
  (g.productions.get? v).getD ∅

/-- An alternative of `v` is a member of the entry of `v`, which then exists. -/
theorem mem_alternatives {v : Name} {right : List Symbol} :
    right ∈ g.alternatives v ↔ ∃ rights, g.productions.get? v = some rights ∧ right ∈ rights := by
  unfold alternatives
  cases g.productions.get? v <;> simp

/-- A variable with an alternative is a left-hand side. -/
theorem mem_keys_of_mem_alternatives {v : Name} {right : List Symbol}
    (hr : right ∈ g.alternatives v) : v ∈ g.productions.keys := by
  obtain ⟨rights, hrights, -⟩ := mem_alternatives.1 hr
  rw [SortedMap.mem_keys_iff_isSome, hrights]
  rfl

/-- **Extensionality.** Grammars are equal when they have the same variables, terminals and start
symbol, the same left-hand sides with an entry and the same alternatives.

**Proof sketch.** The maps of productions agree at every key: where both have an entry it holds the
same alternatives, and where one has none the other has none either, by the condition on left-hand
sides. Alternatives alone would not do, since a missing entry has the same ones as an empty
entry. -/
theorem ext_of_mem {h : Grammar} (hnonterminals : ∀ v, v ∈ g.nonterminals ↔ v ∈ h.nonterminals)
    (hterminals : g.terminals = h.terminals) (hstart : g.start = h.start)
    (hkeys : ∀ v, v ∈ g.productions.keys ↔ v ∈ h.productions.keys)
    (halternatives : ∀ v right, right ∈ g.alternatives v ↔ right ∈ h.alternatives v) : g = h := by
  have hproductions : g.productions = h.productions := by
    refine SortedMap.ext fun v => ?_
    have hkey := hkeys v
    have hrights : g.alternatives v = h.alternatives v := SortedSet.ext (halternatives v)
    rw [SortedMap.mem_keys_iff_isSome, SortedMap.mem_keys_iff_isSome] at hkey
    unfold alternatives at hrights
    cases hg : g.productions.get? v <;> cases hh : h.productions.get? v <;> simp_all
  obtain ⟨nonterminals, terminals, start, productions⟩ := g
  obtain ⟨nonterminals', terminals', start', productions'⟩ := h
  obtain rfl : nonterminals = nonterminals' := SortedSet.ext hnonterminals
  simp_all

/-- **All rules**, ordered by left-hand side and then by alternative. Analyses that go through all
productions go through this list. -/
def rules (g : Grammar) : List Rule :=
  g.productions.toList.flatMap fun entry => entry.2.toList.map fun right => ⟨entry.1, right⟩

/-- The rules of a grammar are the alternatives of its variables. -/
theorem mem_rules {r : Rule} : r ∈ g.rules ↔ r.right ∈ g.alternatives r.left := by
  obtain ⟨left, right⟩ := r
  simp only [rules, List.mem_flatMap, List.mem_map, Rule.mk.injEq, mem_alternatives]
  constructor
  · rintro ⟨⟨v, rights⟩, he, _, hr, rfl, rfl⟩
    exact ⟨rights, SortedMap.mem_toList.1 he, hr⟩
  · rintro ⟨rights, he, hr⟩
    exact ⟨(left, rights), SortedMap.mem_toList.2 he, right, hr, rfl, rfl⟩

/-- **The number of productions**, over all left-hand sides. -/
def productionCount (g : Grammar) : Nat := g.rules.length

/-! ## Restriction -/

/-- **Restriction.** The part of a grammar that speaks only of the variables in `keep`. The start
symbol stays declared in any case, without alternatives if it is not in `keep`. Terminals stay
declared too, those that no longer occur included. -/
def restrict (g : Grammar) (keep : SortedSet Name) : Grammar where
  nonterminals := g.nonterminals.filter fun v => v ∈ keep ∨ v = g.start
  terminals := g.terminals
  start := g.start
  productions := (g.productions.filterKeys (· ∈ keep)).mapValues fun _ rights =>
    rights.filter fun right => ∀ v ∈ Symbol.variablesOf right, v ∈ keep

/-- A restriction keeps the variables in `keep` and the start symbol. -/
@[simp] theorem mem_nonterminals_restrict {keep : SortedSet Name} {v : Name} :
    v ∈ (g.restrict keep).nonterminals ↔ v ∈ g.nonterminals ∧ (v ∈ keep ∨ v = g.start) := by
  simp [restrict]

/-- A restriction keeps the alternatives in which all variables, with the left-hand side, are
kept. -/
theorem mem_alternatives_restrict {keep : SortedSet Name} {v : Name} {right : List Symbol} :
    right ∈ (g.restrict keep).alternatives v ↔
      right ∈ g.alternatives v ∧ v ∈ keep ∧ ∀ u, .nonterminal u ∈ right → u ∈ keep := by
  simp only [mem_alternatives, restrict, SortedMap.get?_mapValues, SortedMap.get?_filterKeys]
  by_cases hv : v ∈ keep
  · cases g.productions.get? v <;> simp [hv]
  · simp [hv]

end Grammar

end ChomskyForm
