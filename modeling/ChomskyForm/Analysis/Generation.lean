import ChomskyForm.Analysis.Saturation
import ChomskyForm.Grammar.Basic

set_option autoImplicit false
set_option relaxedAutoImplicit false

/-!
# Nullable and productive variables

A variable generates some word when one of its alternatives consists of terminals and of
variables that generate some word; it generates the empty word when one of its alternatives
consists of variables that generate the empty word. Both sets are least sets of this kind, so
both are saturations: an alternative is a clause whose body is its occurrences of variables.

## Main definitions

* `ChomskyForm.Grammar.clauses`: the alternatives of a grammar as clauses.
* `ChomskyForm.Grammar.nullable`: the variables that generate the empty word.
* `ChomskyForm.Grammar.productive`: the variables that generate a word of terminals.
-/

namespace ChomskyForm

/-- The clause of a rule: the left-hand side waits for the variables of the right-hand side, once
for each of their occurrences. -/
def Rule.toClause (r : Rule) : Clause := ⟨r.left, Symbol.variablesOf r.right⟩

namespace Grammar

/-- **The alternatives as clauses.** Those with a terminal are left out unless terminals are
admitted: a terminal is no obstacle to generating some word, but there is no empty word with a
terminal in it. -/
def clauses (g : Grammar) (admitTerminals : Bool) : List Clause :=
  (g.rules.filter fun r => admitTerminals || !r.right.any Symbol.isTerminal).map Rule.toClause

/-- **Nullable variables**: those that generate the empty word, found as the least set that obeys
the alternatives without terminals. -/
def nullable (g : Grammar) : SortedSet Name := saturate (g.clauses false)

/-- **Productive variables**: those that generate a word of terminals, found as the least set that
obeys all alternatives. -/
def productive (g : Grammar) : SortedSet Name := saturate (g.clauses true)

end Grammar

end ChomskyForm
