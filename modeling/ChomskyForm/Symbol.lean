set_option autoImplicit false
set_option relaxedAutoImplicit false

/-!
# Names and symbols

A right-hand side of a production is a list of symbols. A symbol is a terminal, a nonterminal
(one of the grammar's variables) or the mark for the empty word. Names are arbitrary texts;
one of them, `ε`, is reserved for that mark.

## Main definitions

* `ChomskyForm.Symbol`: the symbols, ordered with terminals first, then nonterminals, then
  the mark, and by name within a kind.
* `ChomskyForm.Symbol.spell`: a right-hand side as a list of names.
-/

namespace ChomskyForm

open Std

/-- **Names** of variables and terminals: any text, compared character by character. A name may
hold quotes, blanks, backslashes and digits; nothing in it is special but the reserved one. -/
abbrev Name := String

/-- The reserved name that marks the empty word. A description may not declare it. -/
def epsilonName : Name := "ε"

/-- **Symbols** of a right-hand side. The kind is part of a symbol, so that a terminal and a
nonterminal with one name are different symbols, although a grammar declares no such pair. -/
inductive Symbol where
  /-- A letter of the words that the grammar describes. -/
  | terminal (name : Name)
  /-- A variable of the grammar. -/
  | nonterminal (name : Name)
  /-- The mark for the empty word. -/
  | epsilon
deriving DecidableEq, Repr, Inhabited

namespace Symbol

/-! ## Name and order -/

/-- **The name of a symbol**, the reserved one for the mark. -/
def name : Symbol → Name
  | terminal a => a
  | nonterminal a => a
  | epsilon => epsilonName

/-- The place of a symbol's kind in the order of kinds. It comes before the name when two symbols
are compared. -/
def rank : Symbol → Nat
  | terminal _ => 0
  | nonterminal _ => 1
  | epsilon => 2

/-- **Order of symbols.** Terminals come before nonterminals and these before the mark; two symbols
of one kind are ordered by their names. Sets of right-hand sides are listed in the lexicographic
order that this one gives. -/
instance : Ord Symbol := ⟨compareLex (compareOn rank) (compareOn name)⟩

/-- The order of symbols is transitive, as a lexicographic combination of two orders. -/
instance : TransOrd Symbol :=
  inferInstanceAs (TransCmp (compareLex (compareOn rank) (compareOn name)))

/-- Symbols that compare as equal are equal: they are of one kind and have one name. -/
instance : LawfulEqOrd Symbol where
  eq_of_compare {a b} h := by
    have hrank : a.rank = b.rank := LawfulEqCmp.eq_of_compare (Ordering.then_eq_eq.1 h).1
    have hname : a.name = b.name := LawfulEqCmp.eq_of_compare (Ordering.then_eq_eq.1 h).2
    cases a <;> cases b <;> simp_all [rank, name]

/-! ## Views -/

/-- Whether a symbol is a terminal. -/
def isTerminal : Symbol → Bool
  | terminal _ => true
  | _ => false

/-- The variable that a symbol stands for, if it is a nonterminal. -/
def toVariable? : Symbol → Option Name
  | nonterminal a => some a
  | _ => none

/-- A symbol stands for the variable `a` exactly when it is the nonterminal `a`. -/
@[simp] theorem toVariable?_eq_some {s : Symbol} {a : Name} :
    s.toVariable? = some a ↔ s = nonterminal a := by
  cases s <;> simp [toVariable?]

/-- **Occurrences of variables** in a right-hand side, from left to right. A variable that occurs
twice is listed twice. -/
def variablesOf (right : List Symbol) : List Name := right.filterMap toVariable?

/-- A variable occurs in a right-hand side exactly when its nonterminal does. -/
@[simp] theorem mem_variablesOf {right : List Symbol} {a : Name} :
    a ∈ variablesOf right ↔ nonterminal a ∈ right := by
  simp [variablesOf]

/-- **A right-hand side in names.** The empty one is spelled with the reserved name, so that every
spelling has a name in it (`spell_ne_nil`). The kinds are lost; they can be had back from the
declarations. -/
def spell (right : List Symbol) : List Name :=
  if right.isEmpty then [epsilonName] else right.map name

/-- Every right-hand side is spelled with one name at least. -/
theorem spell_ne_nil (right : List Symbol) : spell right ≠ [] := by
  cases right <;> simp [spell]

end Symbol

end ChomskyForm
