import ChomskyForm.Naming.Fresh

set_option autoImplicit false
set_option relaxedAutoImplicit false

/-!
# Binary alternatives

Every alternative of two or more symbols becomes a pair of variables. First each terminal in it is
replaced by a variable that stands for this terminal alone, the same one throughout the
grammar. Then, as long as there are more than two symbols, the first two of them become the
alternative of a new variable, which takes their place: `A → B C D` becomes `A → X D` with
`X → B C`.

## Main definitions

* `ChomskyForm.Naming`: how the new variables are named.
* `ChomskyForm.Binarization`: the productions built so far, and what is needed to go on.
* `ChomskyForm.Grammar.binarize`: the grammar with binary alternatives.
-/

namespace ChomskyForm

/-- **Naming of new variables.** The defaults are those of the command line and of a naming that is
read from a text without fields. The stems are arbitrary names, and may be the same one. -/
structure Naming where
  /-- The stem of variables that stand for a terminal. -/
  terminalStem : Name := "T"
  /-- The stem of variables that stand for the first two symbols of a long alternative. -/
  chainStem : Name := "X"
  /-- The first number of either stem. -/
  firstIndex : UInt64 := 1
deriving DecidableEq, Repr, Inhabited

/-- **The state of a binarization.** The grammar itself is not part of it: productions are built
anew, alternative by alternative, and the grammar's names are in the supply as names in use. -/
structure Binarization where
  /-- How new variables are named. -/
  naming : Naming
  /-- The supply of names. -/
  names : FreshNames
  /-- The variable that stands for a terminal, for each terminal replaced so far. -/
  isolated : SortedMap Name Name
  /-- The productions built so far. -/
  productions : SortedMap Name (SortedSet (List Symbol))
deriving DecidableEq

namespace Binarization

/-- **The beginning**: no production is built, and the names of the grammar are in use. -/
def ofGrammar (g : Grammar) (naming : Naming) : Binarization where
  naming := naming
  names := FreshNames.ofGrammar g naming.firstIndex
  isolated := ∅
  productions := ∅

/-- Gives `left` an entry, if it has none. A variable whose entry is empty keeps it in this way. -/
def declare (b : Binarization) (left : Name) : Binarization :=
  { b with productions := b.productions.update left fun rights => rights.getD ∅ }

/-- Adds an alternative, and an entry for `left` if it has none. -/
def add (b : Binarization) (left : Name) (right : List Symbol) : Binarization :=
  { b with productions := b.productions.update left fun rights => (rights.getD ∅).insert right }

/-- A new variable of a stem. Only the supply of names changes. -/
def fresh (b : Binarization) (stem : Name) : Name × Binarization :=
  let (v, names) := b.names.fresh stem
  (v, { b with names := names })

/-- **Isolation of a terminal.** The variable that stands for it, made when it is needed for the
first time. -/
def isolate (b : Binarization) (terminal : Name) : Name × Binarization :=
  match b.isolated.get? terminal with
  | some v => (v, b)
  | none =>
    let (v, b) := b.fresh b.naming.terminalStem
    let b := b.add v [.terminal terminal]
    (v, { b with isolated := b.isolated.insert terminal v })

/-- **Isolation of all terminals** of a right-hand side, from left to right. Variables stay as they
are. -/
def isolateAll (b : Binarization) : List Symbol → List Symbol × Binarization
  | [] => ([], b)
  | .terminal a :: right =>
    let (v, b) := b.isolate a
    let (right, b) := b.isolateAll right
    (.nonterminal v :: right, b)
  | s :: right =>
    let (right, b) := b.isolateAll right
    (s :: right, b)

/-- **Folding.** Adds a right-hand side to `left` after its first two symbols have been replaced
by a new variable as often as there are more than two. -/
def fold (b : Binarization) (left : Name) : List Symbol → Binarization
  | x :: y :: z :: right =>
    let (v, b) := b.fresh b.naming.chainStem
    (b.add v [x, y]).fold left (.nonterminal v :: z :: right)
  | right => b.add left right
termination_by right => right.length

/-- **The binary form of an alternative**, added to `left`. Alternatives of fewer than two symbols
stay as they are; in a longer one all terminals are isolated before it is folded. -/
def addBinary (b : Binarization) (left : Name) (right : List Symbol) : Binarization :=
  if right.length < 2 then b.add left right
  else
    let (right, b) := b.isolateAll right
    b.fold left right

/-- Adds the binary forms of all alternatives of `left`, in their order, after `left` has been
given an entry. -/
def addEntry (b : Binarization) (left : Name) (rights : SortedSet (List Symbol)) :
    Binarization :=
  rights.toList.foldl (fun b right => b.addBinary left right) (b.declare left)

end Binarization

namespace Grammar

/-- **Binarization.** Every alternative of two or more symbols becomes one of exactly two
variables; the new variables join the declared ones. Left-hand sides are gone through in their
order, with one supply of names and one table of isolated terminals for all of them. -/
def binarize (g : Grammar) (naming : Naming) : Grammar :=
  let b := g.productions.toList.foldl (fun b entry => b.addEntry entry.1 entry.2)
    (Binarization.ofGrammar g naming)
  { g with
    nonterminals := b.productions.keys.union g.nonterminals
    productions := b.productions }

end Grammar

end ChomskyForm
