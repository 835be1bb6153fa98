import ChomskyForm.Stage.Binary
import ChomskyForm.Stage.Epsilon
import ChomskyForm.Stage.Pruning
import ChomskyForm.Stage.Unit

set_option autoImplicit false
set_option relaxedAutoImplicit false

/-!
# Chomsky normal form

A grammar is in Chomsky normal form when every alternative is a single terminal or a pair of
variables, apart from an empty alternative of the start symbol. Any grammar is brought into this
form by the stages below, in a fixed order: removing empty alternatives can create unit
alternatives, and removing unproductive variables can cut others off from the start symbol.

## Main definitions

* `ChomskyForm.Stage`: the single stages and the whole normalization.
* `ChomskyForm.Grammar.run`: a sequence of stages applied to a grammar.
* `ChomskyForm.Grammar.normalize`: Chomsky normal form.
* `ChomskyForm.Grammar.isNormal`: whether a grammar is in this form.
-/

namespace ChomskyForm

namespace Grammar

/-- **Normalization.** The stages that lead to Chomsky normal form, in order. Unreachable variables
are removed twice, before and after the unproductive ones. -/
def normalize (g : Grammar) (naming : Naming) : Grammar :=
  g.eliminateEpsilon.eliminateUnits.pruneUnreachable.pruneUnproductive.pruneUnreachable.binarize
    naming

/-- Whether an alternative of `left` has a form that Chomsky normal form admits. Pairs may contain
the start symbol, also when it has an empty alternative. -/
def isNormalRule (g : Grammar) (r : Rule) : Bool :=
  match r.right with
  | [] => r.left = g.start
  | [.terminal _] => true
  | [.nonterminal _, .nonterminal _] => true
  | _ => false

/-- **Chomsky normal form.** Whether every alternative is a terminal or a pair of variables, or the
empty alternative of the start symbol. All rules are looked at, those of unreachable variables
included. -/
def isNormal (g : Grammar) : Bool := g.rules.all g.isNormalRule

end Grammar

/-- **Stages** of a transformation, chosen by the user in any order. -/
inductive Stage where
  /-- Elimination of empty alternatives. -/
  | eliminateEpsilon
  /-- Elimination of unit alternatives. -/
  | eliminateUnits
  /-- Removal of unreachable variables. -/
  | pruneUnreachable
  /-- Removal of unproductive variables. -/
  | pruneUnproductive
  /-- Binary alternatives. -/
  | binarize (naming : Naming)
  /-- All of these, in the order that leads to Chomsky normal form. -/
  | normalize (naming : Naming)
deriving DecidableEq, Repr

/-- **The effect of a stage** on a grammar. No stage fails. -/
def Stage.apply : Stage → Grammar → Grammar
  | eliminateEpsilon, g => g.eliminateEpsilon
  | eliminateUnits, g => g.eliminateUnits
  | pruneUnreachable, g => g.pruneUnreachable
  | pruneUnproductive, g => g.pruneUnproductive
  | binarize naming, g => g.binarize naming
  | normalize naming, g => g.normalize naming

/-- **A sequence of stages**, the first one applied first. Any sequence may be given, with
repetitions. -/
def Grammar.run (g : Grammar) (stages : List Stage) : Grammar :=
  stages.foldl (fun g stage => stage.apply g) g

end ChomskyForm
