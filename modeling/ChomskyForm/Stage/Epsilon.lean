import ChomskyForm.Analysis.Generation

set_option autoImplicit false
set_option relaxedAutoImplicit false

/-!
# Elimination of empty alternatives

Every alternative is replaced by its variants, in which some occurrences of nullable variables
are left out. Then no empty alternative is needed any more, except for one at the start symbol
when the empty word is generated.

## Main definitions

* `ChomskyForm.variants`: a right-hand side with any of its nullable occurrences left out.
* `ChomskyForm.Grammar.eliminateEpsilon`: the elimination.
-/

namespace ChomskyForm

/-- Whether a symbol is a variable of a given set. A terminal never is, even if its name is in the
set. -/
def Symbol.isIn (s : Symbol) (names : SortedSet Name) : Bool :=
  match s with
  | nonterminal v => v ∈ names
  | _ => false

/-- **Variants.** Every sequence that comes from a right-hand side by leaving out some of the
occurrences of variables in `optional`, one sequence for each choice of occurrences. Different
choices may give the same sequence, which then is listed several times. -/
def variants (optional : SortedSet Name) : List Symbol → List (List Symbol)
  | [] => [[]]
  | s :: right =>
    let tails := variants optional right
    if s.isIn optional then tails ++ tails.map (s :: ·) else tails.map (s :: ·)

namespace Grammar

/-- **Elimination of empty alternatives.** The start symbol keeps an empty alternative exactly when
it is nullable; every left-hand side keeps its entry, also when none of its alternatives is left. -/
def eliminateEpsilon (g : Grammar) : Grammar :=
  let nullable := g.nullable
  { g with
    productions := g.productions.mapValues fun left rights =>
      SortedSet.ofList ((rights.toList.flatMap (variants nullable)).filter fun right =>
        !right.isEmpty || left = g.start) }

end Grammar

end ChomskyForm
