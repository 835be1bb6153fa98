import ChomskyForm.Grammar.Basic

set_option autoImplicit false
set_option relaxedAutoImplicit false

/-!
# Fresh names

New variables are named by a stem and a number. The numbers of a stem count up from a first
index to the greatest number of 64 bits; after that the stem gets a prime and the numbers start
again. A candidate that is in use is passed over, so each fresh name is the first unused one of
its stem's sequence.

## Main definitions

* `ChomskyForm.candidate`: the sequence of candidates of a stem.
* `ChomskyForm.firstUnused`: the first position of a sequence with an unused name.
* `ChomskyForm.FreshNames`: the names in use and how far each stem has counted.
* `ChomskyForm.FreshNames.fresh`: the next fresh name of a stem.

## Implementation notes

Each candidate occurs once in its sequence. So a used name that was met in the search need not be
looked for again, and the search over the names in use ends when they are used up.
-/

namespace ChomskyForm

/-- **Candidates.** The name at position `p` of the sequence of `stem`: as many primes as the
numbers from `first` to 2⁶⁴ - 1 have been run through, and the number that is reached. After a
prime the numbers begin with `first` again. -/
def candidate (first : UInt64) (stem : Name) (p : Nat) : Name :=
  let span := UInt64.size - first.toNat
  stem ++ String.ofList (List.replicate (p / span) '\x27') ++ toString (first.toNat + p % span)

/-- **Search.** The first position from `p` on whose name is not in `used`, provided that no name
comes twice. A used name that has been met is dropped from the list, which so becomes shorter in
each round. -/
def firstUnused (names : Nat → Name) (used : List Name) (p : Nat) : Nat :=
  if _h : names p ∈ used then firstUnused names (used.erase (names p)) (p + 1) else p
termination_by used.length
decreasing_by
  have := List.length_erase_of_mem _h
  have := List.length_pos_of_mem _h
  omega

/-- **A supply of fresh names.** Each stem counts by itself, but all names are drawn from one pool:
a name made for one stem is passed over when another stem arrives at it. -/
structure FreshNames where
  /-- The names in use. -/
  used : SortedSet Name
  /-- For each stem that was asked for, the position from which its sequence goes on. -/
  next : SortedMap Name Nat
  /-- The number at which every stem begins. -/
  firstIndex : UInt64
deriving DecidableEq

namespace FreshNames

/-- **The supply for a grammar.** All its variables and terminals are in use, and no stem has been
asked for. -/
def ofGrammar (g : Grammar) (firstIndex : UInt64) : FreshNames where
  used := g.nonterminals.union g.terminals
  next := ∅
  firstIndex := firstIndex

/-- **A fresh name** of a stem, and the supply after it, in which the name is in use and the stem
goes on behind it. -/
def fresh (names : FreshNames) (stem : Name) : Name × FreshNames :=
  let sequence := candidate names.firstIndex stem
  let p := firstUnused sequence names.used.toList ((names.next.get? stem).getD 0)
  (sequence p, { names with
    used := names.used.insert (sequence p)
    next := names.next.insert stem (p + 1) })

/-- **Fresh names** for several stems in turn, each drawn from the supply that the one before has
left. -/
def freshList (names : FreshNames) : List Name → List Name
  | [] => []
  | stem :: stems =>
    let (name, names) := names.fresh stem
    name :: names.freshList stems

end FreshNames

end ChomskyForm
