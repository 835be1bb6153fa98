import ChomskyForm.Analysis.Digraph
import ChomskyForm.Grammar.Basic

set_option autoImplicit false
set_option relaxedAutoImplicit false

/-!
# Reachable variables and unit pairs

Two digraphs on the names of a grammar: one leads from a left-hand side to all variables of its
alternatives, the other only to those that make up an alternative on their own.

## Main definitions

* `ChomskyForm.Grammar.dependencies`, `ChomskyForm.Grammar.unitEdges`: the two digraphs.
* `ChomskyForm.Grammar.reachable`: the variables that the start symbol leads to.
* `ChomskyForm.Grammar.unitPairs`: for each variable, those it leads to by unit alternatives.
-/

namespace ChomskyForm

/-- The variable that a right-hand side consists of, if it is a single one. A single terminal is
not a unit. -/
def Symbol.unit? : List Symbol → Option Name
  | [nonterminal v] => some v
  | _ => none

/-- A right-hand side is a unit exactly when it is a single nonterminal. -/
@[simp] theorem Symbol.unit?_eq_some {right : List Symbol} {v : Name} :
    unit? right = some v ↔ right = [nonterminal v] := by
  unfold unit?
  split <;> simp_all

namespace Grammar

/-- The edges from a left-hand side to the variables of its alternatives. Left-hand sides without
variables have an entry all the same, an empty one. -/
def dependencies (g : Grammar) : Digraph :=
  ⟨g.productions.mapValues fun _ rights =>
    SortedSet.ofList (rights.toList.flatMap Symbol.variablesOf)⟩

/-- The edges from a left-hand side to the variables that are alternatives of their own, the
left-hand side itself included if it is one. -/
def unitEdges (g : Grammar) : Digraph :=
  ⟨g.productions.mapValues fun _ rights => SortedSet.ofList (rights.toList.filterMap Symbol.unit?)⟩

/-- **Reachable variables**: those that occur in some form derived from the start symbol. The start
symbol is reachable, since it is such a form itself. -/
def reachable (g : Grammar) : SortedSet Name := g.dependencies.reachableFrom g.start

/-- **Unit pairs.** For each variable, all that it can be replaced by through unit alternatives
alone, itself included. There is an entry for every variable, and one search for each of them. -/
def unitPairs (g : Grammar) : SortedMap Name (SortedSet Name) :=
  SortedMap.ofKeys g.nonterminals g.unitEdges.reachableFrom

end Grammar

end ChomskyForm
