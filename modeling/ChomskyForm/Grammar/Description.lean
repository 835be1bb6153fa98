import ChomskyForm.Grammar.Basic

set_option autoImplicit false
set_option relaxedAutoImplicit false

/-!
# Descriptions of grammars

A grammar is supplied, and handed back, as a description: the same four parts, with
right-hand sides spelled in names. Whether a name in a right-hand side is a terminal or a
variable is decided by where it is declared. The reserved name may stand anywhere in a
right-hand side and contributes nothing.

A description is accepted when its declarations fit together. The first violated condition, in
a fixed order of conditions, is the reason for a rejection.

## Main definitions

* `ChomskyForm.Description`: descriptions.
* `ChomskyForm.GrammarError`: the reasons for a rejection.
* `ChomskyForm.Description.violation?`: the first violated condition.
* `ChomskyForm.Grammar.ofDescription`: the grammar of an accepted description.
* `ChomskyForm.Grammar.toDescription`: the description of a grammar.
-/

namespace ChomskyForm

/-- **Descriptions.** Each right-hand side is a list of names of terminals and variables, with the
reserved name for the empty word. Nothing is assumed about how the four parts fit together: that is
what validation finds out. -/
structure Description where
  /-- The declared variables. -/
  nonterminals : SortedSet Name
  /-- The declared terminals. -/
  terminals : SortedSet Name
  /-- The declared start symbol. -/
  start : Name
  /-- The right-hand sides, by left-hand side. -/
  productions : SortedMap Name (SortedSet (List Name))
deriving DecidableEq

/-- **Reasons for a rejection.** Each reason carries the names that its text mentions. -/
inductive GrammarError where
  /-- A right-hand side of `left` mentions `symbol`, which is declared nowhere. -/
  | undeclaredSymbol (left symbol : Name)
  /-- There are productions for a name that is not a variable. -/
  | undeclaredVariable (name : Name)
  /-- The start symbol is not a variable. -/
  | unknownStart (name : Name)
  /-- The variable has no alternatives at all. -/
  | emptyProductionSet (name : Name)
  /-- The name is the reserved one. -/
  | reservedName (name : Name)
  /-- The name is declared both as a variable and as a terminal. -/
  | overlappingName (name : Name)
deriving DecidableEq, Repr

/-- **The text of a reason.** Names stand between double quotes as they are: a quote inside a name
is not escaped. -/
def GrammarError.message : GrammarError → String
  | undeclaredSymbol left symbol =>
    "production of \"" ++ left ++ "\" uses undeclared symbol \"" ++ symbol ++ "\""
  | undeclaredVariable name => "productions given for undeclared variable \"" ++ name ++ "\""
  | unknownStart name => "start symbol \"" ++ name ++ "\" is not a declared variable"
  | emptyProductionSet name => "variable \"" ++ name ++ "\" has no productions"
  | reservedName name => "\"" ++ name ++ "\" is reserved for the epsilon marker"
  | overlappingName name =>
    "\"" ++ name ++ "\" is declared both as a variable and as a terminal"

namespace Description

/-! ## The conditions -/

/-- The right-hand sides given for a name; there are none for a name without an entry. -/
def rightsOf (d : Description) (v : Name) : SortedSet (List Name) :=
  (d.productions.get? v).getD ∅

/-- Whether a name may stand in a right-hand side: it is the reserved one, a variable or a
terminal. -/
def declares (d : Description) (name : Name) : Bool :=
  name = epsilonName ∨ name ∈ d.nonterminals ∨ name ∈ d.terminals

/-- A declared name that is the reserved one. Variables are looked through before terminals, but
the name found is the same in either case. -/
def reservedName? (d : Description) : Option GrammarError :=
  ((d.nonterminals.toList ++ d.terminals.toList).find? (· = epsilonName)).map .reservedName

/-- The least name that is declared twice. -/
def overlappingName? (d : Description) : Option GrammarError :=
  (d.nonterminals.toList.find? (· ∈ d.terminals)).map .overlappingName

/-- The start symbol, unless it is a variable. A start symbol that is declared as a terminal only
is rejected too. -/
def unknownStart? (d : Description) : Option GrammarError :=
  if d.start ∈ d.nonterminals then none else some (.unknownStart d.start)

/-- The least left-hand side that is not a variable. It is looked for whether or not there are
right-hand sides for it. -/
def undeclaredVariable? (d : Description) : Option GrammarError :=
  (d.productions.keys.toList.find? (· ∉ d.nonterminals)).map .undeclaredVariable

/-- The first undeclared name of the first right-hand side with one, for the least such left-hand
side. Left-hand sides and right-hand sides are met in their order, names of a right-hand side from
left to right. -/
def undeclaredSymbol? (d : Description) : Option GrammarError :=
  d.productions.toList.findSome? fun entry =>
    entry.2.toList.findSome? fun right =>
      (right.find? fun name => !d.declares name).map (.undeclaredSymbol entry.1)

/-- The least variable without alternatives, whether it has no entry or an empty one. -/
def emptyProductionSet? (d : Description) : Option GrammarError :=
  (d.nonterminals.toList.find? fun v => (d.rightsOf v).isEmpty).map .emptyProductionSet

/-- **The first violated condition**, in the order in which the conditions are checked. A later
condition is looked at only when all earlier ones are met. -/
def violation? (d : Description) : Option GrammarError :=
  d.reservedName? <|> d.overlappingName? <|> d.unknownStart? <|> d.undeclaredVariable? <|>
    d.undeclaredSymbol? <|> d.emptyProductionSet?

/-! ## The grammar of a description -/

/-- **Classification.** The symbol that a name stands for; the reserved name stands for none. A
name that is not a variable is taken for a terminal, which is right where every name is declared. -/
def symbol? (d : Description) (name : Name) : Option Symbol :=
  if name = epsilonName then none
  else if name ∈ d.nonterminals then some (.nonterminal name)
  else some (.terminal name)

/-- **The grammar that a description describes.** Right-hand sides that differ in reserved names
only become the same alternative, and one with reserved names only becomes the empty alternative. -/
def toGrammar (d : Description) : Grammar where
  nonterminals := d.nonterminals
  terminals := d.terminals
  start := d.start
  productions := d.productions.mapValues fun _ rights => rights.map (·.filterMap d.symbol?)

end Description

namespace Grammar

/-- **Validation.** The grammar of a description, or the first condition that it violates. There is
no partial result: nothing is built from a description that is rejected. -/
def ofDescription (d : Description) : Except GrammarError Grammar :=
  match d.violation? with
  | some e => .error e
  | none => .ok d.toGrammar

/-- A description is accepted exactly when it violates no condition. -/
theorem ofDescription_eq_ok {d : Description} {g : Grammar} :
    ofDescription d = .ok g ↔ d.violation? = none ∧ g = d.toGrammar := by
  unfold ofDescription
  cases d.violation? <;> simp [eq_comm]

/-- A description is rejected for the first condition that it violates. -/
theorem ofDescription_eq_error {d : Description} {e : GrammarError} :
    ofDescription d = .error e ↔ d.violation? = some e := by
  unfold ofDescription
  cases d.violation? <;> simp

/-- **The description of a grammar.** The empty alternative is spelled with the reserved name, all
others by the names of their symbols. -/
def toDescription (g : Grammar) : Description where
  nonterminals := g.nonterminals
  terminals := g.terminals
  start := g.start
  productions := g.productions.mapValues fun _ rights => rights.map Symbol.spell

end Grammar

end ChomskyForm
