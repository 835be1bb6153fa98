import Std.Data.HashSet.Lemmas
import ChomskyForm.Analysis.Generation

set_option autoImplicit false
set_option relaxedAutoImplicit false

/-!
# Earley recognition

Recognition of words for any grammar, with empty alternatives and left recursion. An item says
that a rule was begun at some position of the word and has matched up to a dot in its right-hand
side. The items for each position of the word form a column; the column of a position is
extended by its own items until none is new, and the items that read a letter begin the next
column.

An item that expects a nullable variable also moves on past it at once. This covers completions
that begin and end in one column, whose parents may be added after they were completed.

## Main definitions

* `ChomskyForm.Item`: items.
* `ChomskyForm.Column`: the items of one position, without repetition.
* `ChomskyForm.Earley`: a grammar and a word prepared for recognition.
* `ChomskyForm.Earley.close`: the extension of a column.
* `ChomskyForm.Grammar.derives`: whether a grammar generates a word.

## Implementation notes

A column holds each item once, and only finitely many items can occur in it: the rule is one of
the grammar, the dot is at most the length of its right-hand side and the origin is at most the
position. `Earley.capacity` counts them; it bounds the number of rounds.
-/

namespace ChomskyForm

/-- **Items.** An item stands for a part of a match: the rule is given by its position, so that two
rules with the same right-hand side are told apart. -/
structure Item where
  /-- The position of a rule in the list of rules. -/
  rule : Nat
  /-- How many symbols of its right-hand side have been matched. -/
  dot : Nat
  /-- The position of the word at which the match began. -/
  origin : Nat
deriving DecidableEq, Hashable, Repr, Inhabited

/-- The item with one more symbol matched. Whether there is one to be matched is asked before. -/
def Item.advance (i : Item) : Item := { i with dot := i.dot + 1 }

/-! ## Columns -/

/-- **Columns.** The items of one position of the word in the order in which they were found, with
an index that tells whether an item is among them. The last two fields say that the index tells the
truth and that no item comes twice; `push`, the only way to add an item, keeps both. -/
structure Column where
  /-- The items. -/
  items : Array Item
  /-- The index. -/
  index : Std.HashSet Item
  /-- The index tells the truth. -/
  mem_index : ∀ i, i ∈ index ↔ i ∈ items.toList
  /-- No item comes twice. -/
  nodup : items.toList.Nodup

namespace Column

/-- **The column without items**, with an index that holds none. -/
def empty : Column := ⟨#[], ∅, by simp, by simp⟩

/-- The column without items is written as an empty collection. -/
instance : EmptyCollection Column := ⟨empty⟩

/-- The column without items serves as the default. -/
instance : Inhabited Column := ⟨empty⟩

/-- **Adding an item** at the end, unless it is there already. The index is asked, and not the
items. -/
def push (c : Column) (i : Item) : Column :=
  if h : i ∈ c.index then c
  else
    { items := c.items.push i
      index := c.index.insert i
      mem_index := fun j => by
        rw [Std.HashSet.mem_insert, c.mem_index, Array.toList_push, List.mem_append,
          List.mem_singleton, beq_iff_eq, eq_comm, or_comm]
      nodup := by
        rw [Array.toList_push, List.nodup_append]
        refine ⟨c.nodup, by simp, fun a ha b hb hab => h ((c.mem_index i).2 ?_)⟩
        rw [List.mem_singleton] at hb
        rwa [← hb, ← hab] }

/-- A column holds what it held, and the item that was added, whether or not it was new. -/
theorem mem_push {c : Column} {i j : Item} :
    j ∈ (c.push i).items.toList ↔ j ∈ c.items.toList ∨ j = i := by
  unfold push
  split
  · next h =>
    constructor
    · exact .inl
    · rintro (hj | rfl)
      · exact hj
      · exact (c.mem_index j).1 h
  · simp

/-- **Adding several items**, one after the other. -/
def pushAll (c : Column) (items : List Item) : Column := items.foldl push c

/-- A column holds what it held, and the items that were added. -/
theorem mem_pushAll {c : Column} {items : List Item} {j : Item} :
    j ∈ (c.pushAll items).items.toList ↔ j ∈ c.items.toList ∨ j ∈ items := by
  unfold pushAll
  induction items generalizing c with
  | nil => simp
  | cons i items ih => rw [List.foldl_cons, ih, mem_push, List.mem_cons, or_assoc]

end Column

/-! ## The chart -/

/-- **A grammar and a word**, prepared for recognition. Items refer to a rule by its position, so
rules are kept in an array. -/
structure Earley where
  /-- The rules; items refer to them by position. -/
  rules : Array Rule
  /-- The nullable variables. -/
  nullable : SortedSet Name
  /-- The start symbol. -/
  start : Name
  /-- The word. -/
  word : Array Name

namespace Earley

/-- **Preparation.** The rules are put in order and the nullable variables are found, once for the
whole recognition. -/
def ofGrammar (g : Grammar) (word : List Name) : Earley :=
  ⟨g.rules.toArray, g.nullable, g.start, word.toArray⟩

/-- The rule of an item. There is one for every item that recognition makes. -/
def rule? (e : Earley) (i : Item) : Option Rule := e.rules[i.rule]?

/-- The symbol after the dot; a complete item has none. -/
def expected? (e : Earley) (i : Item) : Option Symbol :=
  (e.rule? i).bind fun r => r.right[i.dot]?

/-- The positions of the rules for a variable. -/
def rulesFor (e : Earley) (v : Name) : List Nat :=
  (List.range e.rules.size).filter fun k => (e.rules[k]?).any (·.left = v)

/-- **Prediction.** The items that begin a match of `v` at position `k`, one for each rule of
`v`. -/
def predict (e : Earley) (k : Nat) (v : Name) : List Item :=
  (e.rulesFor v).map fun r => ⟨r, 0, k⟩

/-- **Completion.** The items of a column that expect `v`, moved on past it, in their order. -/
def complete (e : Earley) (column : Column) (v : Name) : List Item :=
  (column.items.toList.filter fun i => e.expected? i = some (.nonterminal v)).map Item.advance

/-- **Consequences in the same column.** What an item of column `k` adds to this column. The
columns up to the present one are given by `columns`. -/
def within (e : Earley) (columns : Nat → Column) (k : Nat) (i : Item) : List Item :=
  match e.rule? i with
  | none => []
  | some r =>
    match r.right[i.dot]? with
    | none => e.complete (columns i.origin) r.left
    | some (.nonterminal v) => e.predict k v ++ if v ∈ e.nullable then [i.advance] else []
    | some .epsilon => [i.advance]
    | some (.terminal _) => []

/-- **Consequences in the next column.** What an item of column `k` adds to it: itself with the
letter at position `k` matched, if that is the letter it expects. -/
def ahead (e : Earley) (k : Nat) (i : Item) : List Item :=
  match e.expected? i with
  | some (.terminal a) => if e.word[k]? = some a then [i.advance] else []
  | _ => []

/-- **Extension of column `k`.** Goes through its items from the `j`-th on, adding to it and to the
next column, for a number of rounds. The column grows while it is gone through: what is added at
its end has its turn later. -/
def close (e : Earley) (before : Array Column) (k : Nat) :
    Nat → Nat → Column → Column → Column × Column
  | 0, _, column, next => (column, next)
  | rounds + 1, j, column, next =>
    match column.items[j]? with
    | none => (column, next)
    | some i =>
      let columns := fun origin => if origin = k then column else (before[origin]?).getD ∅
      e.close before k rounds (j + 1) (column.pushAll (e.within columns k i))
        (next.pushAll (e.ahead k i))

/-- **Capacity.** How many different items column `k` can hold: for each rule, one for each dot and
each origin. -/
def capacity (e : Earley) (k : Nat) : Nat :=
  (k + 1) * e.rules.toList.foldr (fun r n => r.right.length + 1 + n) 0

/-- **The chart.** The columns of the positions 0 to `k`, and what is known of the next one. The
first column begins with the rules of the start symbol, every other one with what the column before
it has found. -/
def chart (e : Earley) : Nat → Array Column × Column
  | 0 =>
    let (column, next) :=
      e.close #[] 0 (e.capacity 0) 0 (Column.empty.pushAll (e.predict 0 e.start)) ∅
    (#[column], next)
  | k + 1 =>
    let (before, column) := e.chart k
    let (column, next) := e.close before (k + 1) (e.capacity (k + 1)) 0 column ∅
    (before.push column, next)

/-- Whether an item is a complete match of the start symbol from the first position on. -/
def isAccepting (e : Earley) (i : Item) : Bool :=
  match e.rule? i with
  | none => false
  | some r => i.origin = 0 && i.dot = r.right.length && r.left = e.start

/-- **Acceptance.** Whether the last column has a complete match of the start symbol that began at
the first position. -/
def accepts (e : Earley) : Bool :=
  match (e.chart e.word.size).1.back? with
  | none => false
  | some column => column.items.any e.isAccepting

end Earley

/-- **Recognition.** Whether a grammar generates a word. The grammar may be any one, and the word
may contain letters that it does not know. -/
def Grammar.derives (g : Grammar) (word : List Name) : Bool := (Earley.ofGrammar g word).accepts

end ChomskyForm
