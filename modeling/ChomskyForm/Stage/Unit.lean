import ChomskyForm.Analysis.Reachability

set_option autoImplicit false
set_option relaxedAutoImplicit false

/-!
# Elimination of unit alternatives

An alternative that is a single variable is replaced by what that variable can become. Each
variable takes over the other alternatives of all variables that it leads to by unit
alternatives. An empty alternative of the start symbol stands for the empty word of the whole
language; it is not handed on to other variables.

## Main definitions

* `ChomskyForm.Grammar.inherits`: which alternatives of one variable another one takes over.
* `ChomskyForm.Grammar.eliminateUnits`: the elimination.
-/

namespace ChomskyForm

namespace Grammar

/-- **Inheritance.** Whether `left` takes over the alternative `right` of `v`, a variable that it
leads to by unit alternatives. Units are what is to be eliminated, and an empty alternative of the
start symbol stays with the start symbol; everything else is taken over. -/
def inherits (g : Grammar) (left v : Name) (right : List Symbol) : Bool :=
  (Symbol.unit? right).isNone && (!right.isEmpty || left = g.start || v ≠ g.start)

/-- **Elimination of unit alternatives.** Every variable has an entry afterwards, with what it
inherits from the variables of its unit pairs. It is one of these itself, so its own alternatives
are among them, units apart. -/
def eliminateUnits (g : Grammar) : Grammar :=
  { g with
    productions := g.unitPairs.mapValues fun left reached =>
      SortedSet.ofList (reached.toList.flatMap fun v =>
        (g.alternatives v).toList.filter (g.inherits left v)) }

end Grammar

end ChomskyForm
