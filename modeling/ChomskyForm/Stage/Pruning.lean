import ChomskyForm.Analysis.Generation
import ChomskyForm.Analysis.Reachability

set_option autoImplicit false
set_option relaxedAutoImplicit false

/-!
# Removal of useless variables

A variable is of no use if the start symbol never leads to it, or if it generates no word. Either
kind is removed together with every alternative that mentions it. Terminals stay declared, and
so does the start symbol.

## Main definitions

* `ChomskyForm.Grammar.pruneUnreachable`: removal of what the start symbol does not lead to.
* `ChomskyForm.Grammar.pruneUnproductive`: removal of what generates no word.
-/

namespace ChomskyForm

namespace Grammar

/-- **Removal of unreachable variables.** What is removed occurs in no form derived from the start
symbol, so no derivation misses it. -/
def pruneUnreachable (g : Grammar) : Grammar := g.restrict g.reachable

/-- **Removal of unproductive variables.** A start symbol that generates no word stays declared,
without alternatives. -/
def pruneUnproductive (g : Grammar) : Grammar := g.restrict g.productive

end Grammar

end ChomskyForm
