import Mathlib.Algebra.Order.BigOperators.Group.Finset
import Mathlib.Algebra.Order.Group.Nat
import Mathlib.Data.Option.Basic
import Mathlib.Logic.Function.Basic
import ChomskyForm.Proofs.Recognition

set_option autoImplicit false
set_option relaxedAutoImplicit false

/-!
# The chart in one sweep

The chart can be kept in two arrays that have a place for each position of the word from the
beginning: one for the items and one for the sets that tell whether an item is there. A sweep goes
through the items of a position while it adds to them, and then on to the next position. It has no
bound on its turns, and it reads and writes by indices. Here all of these are checked: a read or a
write outside of an array fails. The sweep never fails, and it ends, because the items of a
position are different and there are only so many of them. Its answer is that of recognition.

## Main definitions

* `ChomskyForm.Sweep`: the state of a sweep.
* `ChomskyForm.Earley.turn?`: one turn, in which one item is gone through or the position is left.
* `ChomskyForm.Earley.sweepAfter?`: the state after some turns.
* `ChomskyForm.Earley.turnLimit`: a bound for the number of turns.
* `ChomskyForm.Sweep.Bounded`: states that stay in bounds.
* `ChomskyForm.Earley.Follows`: the invariant of a sweep.

## Main results

* `ChomskyForm.Earley.Follows.exists_turn?`: a turn does not fail, and keeps the invariant.
* `ChomskyForm.Earley.exists_sweepAfter?`: every state of a sweep, with the number of turns before
  it.
* `ChomskyForm.Grammar.sweep_exact`: a sweep stays in bounds, ends, and gives the right answer.
-/

namespace ChomskyForm

/-! ## Arrays as functions -/

section Tabulate

variable {α : Type} {n k : Nat} {f : Nat → α}

/-- **The first `n` values** of a function, as an array. Arrays that are written to index by index
are compared with functions in this way, and not with lists. -/
def tabulate (n : Nat) (f : Nat → α) : Array α := Array.ofFn fun k : Fin n => f k

/-- A table of `n` values has `n` places. -/
@[simp] lemma size_tabulate : (tabulate n f).size = n := Array.size_ofFn

/-- A read gives the value at the index, if it is within the table. -/
lemma getElem?_tabulate : (tabulate n f)[k]? = if k < n then some (f k) else none := by
  rw [tabulate, Array.getElem?_ofFn]
  split <;> rfl

/-- A read within the table gives the value at the index. -/
lemma getElem?_tabulate_of_lt (hk : k < n) : (tabulate n f)[k]? = some (f k) := by
  rw [getElem?_tabulate, if_pos hk]

/-- A read that gives something was within the table, and gives the value there. -/
lemma getElem?_tabulate_eq_some {x : α} : (tabulate n f)[k]? = some x ↔ k < n ∧ f k = x := by
  rw [getElem?_tabulate]
  split
  · next hk => simp [hk]
  · next hk => simp [hk]

/-- **A write changes one value**; one outside of the table changes nothing that is in it. -/
lemma setIfInBounds_tabulate (n k : Nat) (f : Nat → α) (x : α) :
    (tabulate n f).setIfInBounds k x = tabulate n (Function.update f k x) := by
  refine Array.ext_getElem? fun o => ?_
  rw [Array.getElem?_setIfInBounds, size_tabulate, getElem?_tabulate, getElem?_tabulate]
  by_cases ho : k = o
  · subst ho
    simp
  · simp [ho, Function.update_of_ne (Ne.symm ho)]

/-- An array of equal values is the table of a constant function. -/
lemma replicate_eq_tabulate (n : Nat) (x : α) : Array.replicate n x = tabulate n fun _ => x := by
  refine Array.ext_getElem? fun k => ?_
  rw [Array.getElem?_replicate, getElem?_tabulate]

end Tabulate

/-! ## The state of a sweep -/

/-- **The state of a sweep.** Nothing ties the two arrays to each other or to the word: that they
fit is part of what is proved (`Bounded`). -/
structure Sweep where
  /-- The items of each position, in the order in which they were found. -/
  items : Array (Array Item)
  /-- The same items, to tell whether one is there. -/
  seen : Array (Std.HashSet Item)
  /-- The position whose items are gone through. -/
  position : Nat
  /-- Which of its items comes next. -/
  place : Nat

namespace Sweep

/-- **The blank chart** for `n` positions, with the first item of the first position to come
next. -/
def blank (n : Nat) : Sweep := ⟨Array.replicate n #[], Array.replicate n ∅, 0, 0⟩

/-- **Adding an item** at position `k`, unless it is there already. It fails where there is no such
position. The set is asked first, so that the items are looked up only if there is something to be
added. -/
def push? (s : Sweep) (k : Nat) (i : Item) : Option Sweep := do
  let index ← s.seen[k]?
  if i ∈ index then return s
  let items ← s.items[k]?
  return { s with
    items := s.items.setIfInBounds k (items.push i)
    seen := s.seen.setIfInBounds k (index.insert i) }

/-- **Adding several items** at position `k`, one after the other. Without items nothing is looked
up, so it does not fail even if there is no such position. -/
def pushAll? (s : Sweep) (k : Nat) (items : List Item) : Option Sweep :=
  items.foldlM (fun s i => s.push? k i) s

/-- **The state that shows** the first `n` of some columns. All states of a sweep turn out to be of
this kind. -/
def ofColumns (n : Nat) (columns : Nat → Column) (position place : Nat) : Sweep where
  items := tabulate n fun k => (columns k).items
  seen := tabulate n fun k => (columns k).index
  position := position
  place := place

variable {n k p q : Nat} {columns : Nat → Column}

/-- The position of a state that shows columns is the one it was given. -/
@[simp] lemma position_ofColumns : (ofColumns n columns p q).position = p := rfl

/-- The place of a state that shows columns is the one it was given. -/
@[simp] lemma place_ofColumns : (ofColumns n columns p q).place = q := rfl

/-- The items at a position are those of its column. -/
lemma getElem?_items_ofColumns (hk : k < n) :
    (ofColumns n columns p q).items[k]? = some (columns k).items :=
  getElem?_tabulate_of_lt hk

/-- The set at a position is the index of its column. -/
lemma getElem?_seen_ofColumns (hk : k < n) :
    (ofColumns n columns p q).seen[k]? = some (columns k).index :=
  getElem?_tabulate_of_lt hk

/-- The blank chart shows columns without items. -/
lemma blank_eq (n : Nat) : blank n = ofColumns n (fun _ => ∅) 0 0 := by
  rw [blank, replicate_eq_tabulate, replicate_eq_tabulate]
  rfl

/-- **The columns show an added item.** If it is there already, the column stays the same in both;
otherwise both of its arrays are written at the same position. -/
lemma push?_ofColumns (hk : k < n) (i : Item) :
    (ofColumns n columns p q).push? k i =
      some (ofColumns n (Function.update columns k ((columns k).push i)) p q) := by
  have hupdate : ∀ {α : Type} (view : Column → α) (c : Column),
      (fun o => view (Function.update columns k c o)) =
        Function.update (fun o => view (columns o)) k (view c) :=
    fun view c => Function.comp_update view columns k c
  rw [push?, getElem?_seen_ofColumns hk, Option.bind_eq_bind, Option.bind_some]
  unfold Column.push
  split
  · rw [Function.update_eq_self]
    rfl
  · rw [getElem?_items_ofColumns hk, Option.bind_eq_bind, Option.bind_some, ofColumns, ofColumns,
      hupdate Column.items, hupdate Column.index, setIfInBounds_tabulate, setIfInBounds_tabulate]
    rfl

/-- **The columns show added items.** Nothing is looked up when there are none, so the position has
to exist only if there are some. -/
lemma pushAll?_ofColumns {items : List Item} (hk : ∀ i ∈ items, k < n) :
    (ofColumns n columns p q).pushAll? k items =
      some (ofColumns n (Function.update columns k ((columns k).pushAll items)) p q) := by
  unfold pushAll? Column.pushAll
  induction items generalizing columns with
  | nil => simp
  | cons i items ih =>
    rw [List.foldlM_cons, push?_ofColumns (hk i List.mem_cons_self), Option.bind_eq_bind,
      Option.bind_some, ih fun j hj => hk j (List.mem_cons_of_mem i hj), Function.update_self,
      Function.update_idem]
    rfl

/-- **States that stay in bounds.** The conditions speak of the two arrays, the word and the rules
alone; columns and generation do not occur in them. -/
structure Bounded (s : Sweep) (e : Earley) : Prop where
  /-- There are items for each position of the word, -/
  size_items : s.items.size = e.word.size + 1
  /-- and a set for each of them. -/
  size_seen : s.seen.size = e.word.size + 1
  /-- The sweep goes up to the end of the word, -/
  position_le : s.position ≤ e.word.size + 1
  /-- and at each position up to the last item. -/
  place_le : ∀ items, s.items[s.position]? = some items → s.place ≤ items.size
  /-- No item is at a position twice, -/
  nodup : ∀ (k : Nat) items, s.items[k]? = some items → items.toList.Nodup
  /-- so there are no more than different ones. -/
  size_le : ∀ (k : Nat) items, s.items[k]? = some items → items.size ≤ e.capacity k
  /-- The sets tell the truth. -/
  seen : ∀ (k : Nat) items, s.items[k]? = some items →
    ∃ index, s.seen[k]? = some index ∧ ∀ i, i ∈ index ↔ i ∈ items.toList
  /-- An item has a rule, its dot is not behind the end of it, and it began no later than here. -/
  fits : ∀ (k : Nat) items, s.items[k]? = some items → ∀ i ∈ items.toList,
    i.rule < e.rules.size ∧ (∃ r, e.rules[i.rule]? = some r ∧ i.dot ≤ r.right.length) ∧ i.origin ≤ k

end Sweep

namespace Earley

/-! ## The checked sweep -/

/-- **Completion**, with every rule looked up. The rules are those of the items, and a rule that
does not exist is a failure, even of an item that expects something else. -/
def complete? (e : Earley) (v : Name) : List Item → Option (List Item)
  | [] => some []
  | i :: items => do
    let r ← e.rule? i
    let parents ← e.complete? v items
    return if r.right[i.dot]? = some (.nonterminal v) then i.advance :: parents else parents

/-- **Consequences at the same position.** A complete item looks up the items of its origin, which
may be the present position. -/
def within? (e : Earley) (s : Sweep) (i : Item) : Option (List Item) := do
  let r ← e.rule? i
  match r.right[i.dot]? with
  | none => do
    let items ← s.items[i.origin]?
    e.complete? r.left items.toList
  | some (.nonterminal v) =>
    return e.predict s.position v ++ if v ∈ e.nullable then [i.advance] else []
  | some .epsilon => return [i.advance]
  | some (.terminal _) => return []

/-- **Consequences at the next position.** The letter is looked up only before the end of the
word. -/
def ahead? (e : Earley) (s : Sweep) (i : Item) : Option (List Item) := do
  let r ← e.rule? i
  match r.right[i.dot]? with
  | some (.terminal a) =>
    if s.position < e.word.size then do
      let b ← e.word[s.position]?
      return if b = a then [i.advance] else []
    else return []
  | _ => return []

/-- **One turn.** The next item of the position is gone through or, when there is none, the
position is left. Behind the end of the word nothing happens any more, so that every number of
turns makes sense. -/
def turn? (e : Earley) (s : Sweep) : Option Sweep :=
  if e.word.size < s.position then some s
  else do
    let items ← s.items[s.position]?
    match items[s.place]? with
    | none => return { s with position := s.position + 1, place := 0 }
    | some i => do
      let t ← s.pushAll? s.position (← e.within? s i)
      let t ← t.pushAll? (s.position + 1) (← e.ahead? s i)
      return { t with place := s.place + 1 }

/-- **The sweep after `m` turns**, from a blank chart to which the rules of the start symbol have
been added. It fails if an index was outside of an array in any of them. -/
def sweepAfter? (e : Earley) : Nat → Option Sweep
  | 0 => (Sweep.blank (e.word.size + 1)).pushAll? 0 (e.predict 0 e.start)
  | m + 1 => (e.sweepAfter? m).bind e.turn?

/-- Whether one of the items is accepting, with every rule looked up until one is found. -/
def anyAccepting? (e : Earley) : List Item → Option Bool
  | [] => some false
  | i :: items => do
    let r ← e.rule? i
    if i.origin = 0 ∧ i.dot = r.right.length ∧ r.left = e.start then return true
    e.anyAccepting? items

/-- **The answer**: whether there is an accepting item at the end of the word. -/
def answer? (e : Earley) (s : Sweep) : Option Bool := do
  let items ← s.items[e.word.size]?
  e.anyAccepting? items.toList

/-- **A bound for the number of turns**: each position has one for each item it can hold, and one
more to leave it. -/
def turnLimit (e : Earley) : Nat := ∑ k ∈ Finset.range (e.word.size + 1), (e.capacity k + 1)

variable {g : Grammar} {e : Earley} {k q m : Nat} {i : Item} {columns : Nat → Column}

/-! ## Lookups that do not fail -/

/-- The symbol after the dot of an item with a rule is looked up in the rule. -/
lemma expected?_eq {r : Rule} (hr : e.rule? i = some r) : e.expected? i = r.right[i.dot]? := by
  rw [expected?, hr]
  rfl

/-- **Completion does not fail** when all items have rules, and finds the items that expect the
variable. -/
lemma complete?_eq {v : Name} {items : List Item} (h : ∀ i ∈ items, ∃ r, e.rule? i = some r) :
    e.complete? v items =
      some ((items.filter fun i => e.expected? i = some (.nonterminal v)).map Item.advance) := by
  induction items with
  | nil => rfl
  | cons i items ih =>
    obtain ⟨r, hr⟩ := h i List.mem_cons_self
    rw [complete?, hr, ih fun i hi => h i (List.mem_cons_of_mem _ hi), List.filter_cons,
      expected?_eq hr]
    simp only [Option.bind_eq_bind, Option.bind_some, decide_eq_true_eq]
    split
    · rfl
    · rfl

/-- **The search for an accepting item does not fail** when all items have rules, and finds out
whether there is one. -/
lemma anyAccepting?_eq {items : List Item} (h : ∀ i ∈ items, ∃ r, e.rule? i = some r) :
    e.anyAccepting? items = some (items.any e.isAccepting) := by
  induction items with
  | nil => rfl
  | cons i items ih =>
    obtain ⟨r, hr⟩ := h i List.mem_cons_self
    have haccepting : e.isAccepting i =
        decide (i.origin = 0 ∧ i.dot = r.right.length ∧ r.left = e.start) := by
      rw [isAccepting, hr]
      simp [Bool.and_assoc]
    rw [anyAccepting?, hr, List.any_cons, haccepting,
      ih fun i hi => h i (List.mem_cons_of_mem _ hi)]
    simp only [Option.bind_eq_bind, Option.bind_some]
    split
    · next hyes => simp [hyes]
    · next hno => simp [hno]

/-- What an item adds to its column depends, among the columns, on the one in which it began
only. -/
lemma within_congr {columns' : Nat → Column} (h : columns i.origin = columns' i.origin) :
    e.within columns k i = e.within columns' k i := by
  unfold within
  rw [h]

/-- **What a sound item adds at its position is found without failure.** Its origin is not behind
the position, and the items there are sound and so have rules. -/
lemma within?_ofColumns {n : Nat} (hi : e.Sound g k i) (hk : k < n)
    (hsound : ∀ o, ∀ j ∈ columns o, e.Sound g o j) :
    e.within? (.ofColumns n columns k q) i = some (e.within columns k i) := by
  obtain ⟨ho, r, hr, -⟩ := hi
  have hrules : ∀ j ∈ (columns i.origin).items.toList, ∃ r, e.rule? j = some r := by
    intro j hj
    obtain ⟨-, r, hr, -⟩ := hsound i.origin j hj
    exact ⟨r, hr⟩
  unfold within within?
  rw [hr]
  simp only [Option.bind_eq_bind, Option.bind_some]
  cases r.right[i.dot]? with
  | none =>
    simp only [Sweep.getElem?_items_ofColumns (Nat.lt_of_le_of_lt ho hk), Option.bind_some,
      complete?_eq hrules]
    rfl
  | some s => cases s <;> rfl

/-- **What a sound item adds at the next position is found without failure.** At the end of the
word no letter is looked up, and nothing is added. -/
lemma ahead?_ofColumns {n : Nat} (hi : e.Sound g k i) :
    e.ahead? (.ofColumns n columns k q) i = some (e.ahead k i) := by
  obtain ⟨-, r, hr, -⟩ := hi
  rw [ahead, expected?_eq hr, ahead?, hr]
  simp only [Option.bind_eq_bind, Option.bind_some, Sweep.position_ofColumns]
  rcases r.right[i.dot]? with _ | a | v | _
  · rfl
  · by_cases hk : k < e.word.size
    · simp [hk]
    · simp [hk]
  · rfl
  · rfl

/-! ## The invariant -/

/-- **The invariant of a sweep** that has come to the item at place `q` of position `k`. It says
that the columns shown are those of a chart in the making: going on with the present one in rounds
would end with the column of the chart. -/
structure Follows (e : Earley) (g : Grammar) (columns : Nat → Column) (k q : Nat) : Prop where
  /-- The columns before the present one are those of the chart. -/
  before : ∀ o < k, columns o = e.column o
  /-- The present one is being extended, -/
  closing : Closing e g (e.before k) k q (columns k) (columns (k + 1))
  /-- and going on with it, as long as there can be new items, leads to the column of the chart. -/
  closes : ∃ rounds, e.capacity k ≤ rounds + q ∧
    e.close (e.before k) k rounds q (columns k) (columns (k + 1)) = e.extension k
  /-- Beyond the next column there are no items. -/
  later : ∀ o, k + 1 < o → columns o = ∅
  /-- The place is one of the column, or the next after them. -/
  place_le : q ≤ (columns k).items.size

/-- **All items are sound**: those of earlier columns as items of the chart, those of the present
and of the next one by the invariant of the extension. Further columns have none. -/
lemma Follows.sound (h : e.Follows g columns k q) (hprep : e.Prepares g) {o : Nat}
    (hi : i ∈ columns o) : e.Sound g o i := by
  rcases Nat.lt_trichotomy o k with ho | rfl | ho
  · rw [h.before o ho] at hi
    exact sound_of_mem_column hprep hi
  · exact h.closing.sound i hi
  · rcases Nat.lt_or_eq_of_le ho with ho | rfl
    · rw [h.later o ho] at hi
      exact absurd hi (Column.notMem_empty i)
    · exact h.closing.sound_next i hi

/-- **A column begins** with what is in it before its extension. None of its items has been gone
through, and there is nothing in the columns after it. -/
lemma follows_initial (hprep : e.Prepares g) (hbefore : ∀ o < k, columns o = e.column o)
    (hk : columns k = e.initial k) (hlater : ∀ o, k < o → columns o = ∅) :
    e.Follows g columns k 0 where
  before := hbefore
  closing := by
    rw [hk, hlater (k + 1) (Nat.lt_succ_self k)]
    exact .of_sound fun i hi => sound_of_mem_column hprep ((closed_column hprep k).2 i hi)
  closes := by
    refine ⟨e.capacity k, Nat.le_refl _, ?_⟩
    rw [hk, hlater (k + 1) (Nat.lt_succ_self k), extension]
  later o ho := hlater o (Nat.lt_of_succ_lt ho)
  place_le := Nat.zero_le _

/-- The extension of a column is over when there is no item left, however many rounds there are. -/
lemma close_of_none {before : Array Column} {rounds : Nat} {column next : Column}
    (h : column.items[q]? = none) : e.close before k rounds q column next = (column, next) := by
  cases rounds with
  | zero => rfl
  | succ rounds => rw [close, h]

/-- **When no item is left**, the column is that of the chart, and the next one begins with what
the present one has found. -/
lemma Follows.next (h : e.Follows g columns k q) (hprep : e.Prepares g)
    (hq : (columns k).items[q]? = none) : e.Follows g columns (k + 1) 0 := by
  obtain ⟨rounds, -, hclose⟩ := h.closes
  rw [close_of_none hq] at hclose
  refine follows_initial hprep (fun o ho => ?_) ?_ h.later
  · rcases Nat.lt_or_eq_of_le (Nat.le_of_lt_succ ho) with ho | rfl
    · exact h.before o ho
    · rw [column, ← hclose]
  · rw [initial, chart_eq, ← hclose]

/-- **The columns with what an item adds** to its own and to the next one, where the sweep writes
them. -/
def advanced (e : Earley) (columns : Nat → Column) (k : Nat) (i : Item) : Nat → Column :=
  Function.update (Function.update columns k ((columns k).pushAll (e.within columns k i))) (k + 1)
    ((columns (k + 1)).pushAll (e.ahead k i))

/-- The item's own column has what it adds there. -/
lemma advanced_self : e.advanced columns k i k = (columns k).pushAll (e.within columns k i) := by
  rw [advanced, Function.update_of_ne (Nat.ne_of_lt (Nat.lt_succ_self k)), Function.update_self]

/-- The next column has what the item adds ahead. -/
lemma advanced_succ :
    e.advanced columns k i (k + 1) = (columns (k + 1)).pushAll (e.ahead k i) := by
  rw [advanced, Function.update_self]

/-- All other columns stay as they are. -/
lemma advanced_of_ne {o : Nat} (hk : o ≠ k) (hk' : o ≠ k + 1) :
    e.advanced columns k i o = columns o := by
  rw [advanced, Function.update_of_ne hk', Function.update_of_ne hk]

/-- The columns that can be seen are those that there are, up to the present one. -/
lemma Follows.visible_eq (h : e.Follows g columns k q) {o : Nat} (ho : o ≤ k) :
    visible (e.before k) k (columns k) o = columns o := by
  rcases Nat.lt_or_eq_of_le ho with ho | rfl
  · rw [visible_before ho, h.before o ho]
  · rw [visible, if_pos rfl]

/-- **One item is gone through.**

**Proof sketch.** What the item adds is found by looking at columns that are there already. There
are rounds left to go on with, since the column is within its capacity and has an item at place
`q`. -/
lemma Follows.advance (h : e.Follows g columns k q) (hprep : e.Prepares g)
    (hi : (columns k).items[q]? = some i) : e.Follows g (e.advanced columns k i) k (q + 1) := by
  have hsound := h.closing.sound i (Column.mem_iff_getElem?.2 ⟨q, hi⟩)
  have hbefore : ∀ o < k, ∀ j ∈ ((e.before k)[o]?).getD ∅, e.Sound g o j := by
    intro o ho j hj
    rw [getElem?_before ho] at hj
    exact sound_of_mem_column hprep hj
  have hwithin := within_congr (e := e) (k := k) (h.visible_eq hsound.origin_le)
  have hcolumn : e.advanced columns k i k = (columns k).pushAll
      (e.within (visible (e.before k) k (columns k)) k i) := by
    rw [advanced_self, hwithin]
  refine ⟨fun o ho => ?_, ?_, ?_, fun o ho => ?_, ?_⟩
  · rw [advanced_of_ne (by omega) (by omega), h.before o ho]
  · rw [hcolumn, advanced_succ]
    exact h.closing.step hprep hbefore hi
  · obtain ⟨rounds, hrounds, hclose⟩ := h.closes
    obtain ⟨hlt, -⟩ := Array.getElem?_eq_some_iff.1 hi
    have hcapacity := size_le_capacity h.closing.sound
    -- the rounds are not used up, since place `q` is within the capacity
    obtain ⟨rounds, rfl⟩ : ∃ m, rounds = m + 1 := ⟨rounds - 1, by omega⟩
    rw [close, hi] at hclose
    refine ⟨rounds, by omega, ?_⟩
    rw [hcolumn, advanced_succ]
    exact hclose
  · rw [advanced_of_ne (by omega) (by omega), h.later o ho]
  · have hplace : (e.advanced columns k i k).items[q]? = some i := by
      rw [advanced_self]
      exact Column.getElem?_pushAll hi
    obtain ⟨hlt, -⟩ := Array.getElem?_eq_some_iff.1 hplace
    exact hlt

/-! ## Turns -/

/-- **A position without a next item is left.** The items of the position are looked up to find
that out, which does not fail up to the end of the word. -/
lemma turn?_of_none (hk : k ≤ e.word.size) (hq : (columns k).items[q]? = none) :
    e.turn? (.ofColumns (e.word.size + 1) columns k q) =
      some (.ofColumns (e.word.size + 1) columns (k + 1) 0) := by
  rw [turn?, Sweep.position_ofColumns, Sweep.place_ofColumns, if_neg (Nat.not_lt.2 hk),
    Sweep.getElem?_items_ofColumns (Nat.lt_succ_of_le hk)]
  simp only [Option.bind_eq_bind, Option.bind_some, hq]
  rfl

/-- **The next item of a position is gone through.** At the end of the word it adds nothing at the
next position, which is not there.

**Proof sketch.** All lookups succeed since the item is sound (`within?_ofColumns`,
`ahead?_ofColumns`), and so do the writes (`pushAll?_ofColumns`): the position itself exists, and
the next one does if there is a letter to be read. The second write finds the next column as it
was, since the first one has changed the present column only. -/
lemma Follows.turn?_of_some (h : e.Follows g columns k q) (hprep : e.Prepares g)
    (hk : k ≤ e.word.size) (hq : (columns k).items[q]? = some i) :
    e.turn? (.ofColumns (e.word.size + 1) columns k q) =
      some (.ofColumns (e.word.size + 1) (e.advanced columns k i) k (q + 1)) := by
  have hlt : k < e.word.size + 1 := Nat.lt_succ_of_le hk
  have hsound := h.closing.sound i (Column.mem_iff_getElem?.2 ⟨q, hq⟩)
  have hahead : ∀ j ∈ e.ahead k i, k + 1 < e.word.size + 1 := by
    intro j hj
    obtain ⟨a, -, ha, -⟩ := mem_ahead.1 hj
    obtain ⟨hletter, -⟩ := Array.getElem?_eq_some_iff.1 ha
    exact Nat.succ_lt_succ hletter
  have hwithin := within?_ofColumns (q := q) hsound hlt fun o j => h.sound hprep
  have hnext := Function.update_of_ne (Nat.succ_ne_self k)
    ((columns k).pushAll (e.within columns k i)) columns
  rw [turn?, Sweep.position_ofColumns, Sweep.place_ofColumns, if_neg (Nat.not_lt.2 hk),
    Sweep.getElem?_items_ofColumns hlt]
  simp only [Option.bind_eq_bind, Option.bind_some, hq, hwithin, ahead?_ofColumns hsound,
    Sweep.pushAll?_ofColumns fun _ _ => hlt, Sweep.pushAll?_ofColumns hahead, hnext]
  rfl

/-- **A turn does not fail**, and keeps the invariant. It goes on by one place, or by one
position. -/
lemma Follows.exists_turn? (h : e.Follows g columns k q) (hprep : e.Prepares g)
    (hk : k ≤ e.word.size) :
    ∃ columns' k' q', e.turn? (.ofColumns (e.word.size + 1) columns k q) =
        some (.ofColumns (e.word.size + 1) columns' k' q') ∧
      e.Follows g columns' k' q' ∧ (k' = k ∧ q' = q + 1 ∨ k' = k + 1 ∧ q' = 0) := by
  cases hq : (columns k).items[q]? with
  | none => exact ⟨_, _, _, turn?_of_none hk hq, h.next hprep hq, .inr ⟨rfl, rfl⟩⟩
  | some i => exact ⟨_, _, _, h.turn?_of_some hprep hk hq, h.advance hprep hq, .inl ⟨rfl, rfl⟩⟩

/-! ## The run -/

/-- The sweep begins with the first column before its extension, and with the invariant. -/
lemma sweepAfter?_zero (hprep : e.Prepares g) :
    ∃ columns, e.sweepAfter? 0 = some (.ofColumns (e.word.size + 1) columns 0 0) ∧
      e.Follows g columns 0 0 := by
  refine ⟨Function.update (fun _ => ∅) 0 (e.initial 0), ?_, follows_initial hprep ?_ ?_ ?_⟩
  · rw [sweepAfter?, Sweep.blank_eq, Sweep.pushAll?_ofColumns fun _ _ => Nat.succ_pos _]
    rfl
  · exact fun o ho => absurd ho (Nat.not_lt_zero o)
  · exact Function.update_self _ _ _
  · exact fun o ho => Function.update_of_ne (Nat.ne_of_gt ho) _ _

/-- **Every state of a sweep** has the invariant. While the word is not over, there have been no
more turns than the positions before can take, and one for each place before the present one.

**Proof sketch.** Induction on the turns. A position is left when its last item has been gone
through, and its items are within its capacity. -/
theorem exists_sweepAfter? (hprep : e.Prepares g) (m : Nat) :
    ∃ columns k q, e.sweepAfter? m = some (.ofColumns (e.word.size + 1) columns k q) ∧
      e.Follows g columns k q ∧ k ≤ e.word.size + 1 ∧
      (k ≤ e.word.size → m ≤ ∑ o ∈ Finset.range k, (e.capacity o + 1) + q) := by
  induction m with
  | zero =>
    obtain ⟨columns, hsweep, hfollows⟩ := sweepAfter?_zero hprep
    exact ⟨columns, 0, 0, hsweep, hfollows, Nat.zero_le _, fun _ => Nat.zero_le _⟩
  | succ m ih =>
    obtain ⟨columns, k, q, hsweep, hfollows, hk, hle⟩ := ih
    rw [sweepAfter?, hsweep, Option.bind_some]
    by_cases hover : e.word.size < k
    · refine ⟨columns, k, q, ?_, hfollows, hk, fun hk => absurd hover (Nat.not_lt.2 hk)⟩
      rw [turn?, Sweep.position_ofColumns, if_pos hover]
    · have hk := Nat.le_of_not_lt hover
      have hcapacity := size_le_capacity hfollows.closing.sound
      have hplace := hfollows.place_le
      have hturns := hle hk
      -- a position is left when its items, which are within its capacity, have been gone through
      obtain ⟨columns', k', q', hturn, hfollows', hgoes⟩ := hfollows.exists_turn? hprep hk
      refine ⟨columns', k', q', hturn, hfollows', by omega, fun _ => ?_⟩
      rcases hgoes with ⟨rfl, rfl⟩ | ⟨rfl, rfl⟩
      · omega
      · rw [Finset.sum_range_succ]
        omega

/-- **The number of turns is below the limit while the word is not over.** The turns spent at the
present position are no more than its items, which are within its capacity. -/
lemma Follows.lt_turnLimit (h : e.Follows g columns k q) (hk : k ≤ e.word.size)
    (hle : m ≤ ∑ o ∈ Finset.range k, (e.capacity o + 1) + q) : m < e.turnLimit := by
  have hcapacity := size_le_capacity h.closing.sound
  have hplace := h.place_le
  have hsum : ∑ o ∈ Finset.range (k + 1), (e.capacity o + 1) ≤ e.turnLimit :=
    Finset.sum_le_sum_of_subset (Finset.range_mono (Nat.succ_le_succ hk))
  rw [Finset.sum_range_succ] at hsum
  omega

/-- **A turn changes nothing** at the positions before the present one.

**Proof sketch.** Before and after the turn the invariant holds, and by it the columns before the
present position are those of the chart, in both states. -/
lemma getElem?_of_turn? (hprep : e.Prepares g) {s t : Sweep} (hs : e.sweepAfter? m = some s)
    (ht : e.turn? s = some t) {o : Nat} (ho : o < s.position) :
    t.items[o]? = s.items[o]? ∧ t.seen[o]? = s.seen[o]? := by
  obtain ⟨columns, k, q, hsweep, hfollows, -⟩ := exists_sweepAfter? hprep m
  obtain rfl := Option.some.inj (hsweep.symm.trans hs)
  rw [Sweep.position_ofColumns] at ho
  by_cases hover : e.word.size < k
  · rw [turn?, Sweep.position_ofColumns, if_pos hover] at ht
    obtain rfl := Option.some.inj ht
    exact ⟨rfl, rfl⟩
  · obtain ⟨columns', k', q', hturn, hfollows', hgoes⟩ :=
      hfollows.exists_turn? hprep (Nat.le_of_not_lt hover)
    obtain rfl := Option.some.inj (hturn.symm.trans ht)
    have hcolumns : columns' o = columns o := by
      rw [hfollows.before o ho, hfollows'.before o (by omega)]
    simp only [Sweep.ofColumns, getElem?_tabulate, hcolumns, and_self]

/-- **A state with the invariant stays in bounds.**

**Proof sketch.** Condition by condition: what is read at a position is the column there. That no
item comes twice and that the set tells the truth are fields of a column, that there are no more
items than different ones is `size_le_capacity`, and that they fit is what soundness says of
them. -/
lemma Follows.bounded (h : e.Follows g columns k q) (hprep : e.Prepares g)
    (hk : k ≤ e.word.size + 1) : (Sweep.ofColumns (e.word.size + 1) columns k q).Bounded e where
  size_items := size_tabulate
  size_seen := size_tabulate
  position_le := hk
  place_le items hitems := by
    obtain ⟨-, rfl⟩ := getElem?_tabulate_eq_some.1 hitems
    exact h.place_le
  nodup o items hitems := by
    obtain ⟨-, rfl⟩ := getElem?_tabulate_eq_some.1 hitems
    exact (columns o).nodup
  size_le o items hitems := by
    obtain ⟨-, rfl⟩ := getElem?_tabulate_eq_some.1 hitems
    exact size_le_capacity fun i => h.sound hprep
  seen o items hitems := by
    obtain ⟨ho, rfl⟩ := getElem?_tabulate_eq_some.1 hitems
    exact ⟨_, getElem?_tabulate_of_lt ho, (columns o).mem_index⟩
  fits o items hitems i hi := by
    obtain ⟨-, rfl⟩ := getElem?_tabulate_eq_some.1 hitems
    obtain ⟨horigin, r, hr, hdot, -⟩ := h.sound hprep hi
    obtain ⟨hlt, -⟩ := Array.getElem?_eq_some_iff.1 hr
    exact ⟨hlt, ⟨r, hr, hdot⟩, horigin⟩

/-- **The answer** is that of recognition, when the word is over. All items of the last position
are sound, so no lookup of a rule fails. -/
lemma Follows.answer?_eq (h : e.Follows g columns (e.word.size + 1) q) (hprep : e.Prepares g) :
    e.answer? (.ofColumns (e.word.size + 1) columns (e.word.size + 1) q) = some e.accepts := by
  have hlt := Nat.lt_succ_self e.word.size
  have hrules : ∀ i ∈ (e.column e.word.size).items.toList, ∃ r, e.rule? i = some r := by
    intro i hi
    obtain ⟨-, r, hr, -⟩ := sound_of_mem_column hprep hi
    exact ⟨r, hr⟩
  rw [answer?, Sweep.getElem?_items_ofColumns hlt, Option.bind_eq_bind, Option.bind_some,
    h.before _ hlt, anyAccepting?_eq hrules]
  simp only [accepts, chart_eq, Array.back?_push, Array.any_toList]

end Earley

namespace Grammar

/-- **The sweep for a word** after `m` turns, with the grammar's rules and nullable variables. -/
def sweepAfter? (g : Grammar) (word : List Name) (m : Nat) : Option Sweep :=
  (Earley.ofGrammar g word).sweepAfter? m

/-- **A sweep stays in bounds and ends.** For every grammar and every word, no turn fails, so all
indices that are used are in range, and every state is in bounds. A turn changes nothing at the
positions before the present one. After the turns that the positions can take, the word is over,
the items are those of the chart, and the answer, which does not fail either, is that of
recognition.

**Proof sketch.** The first two parts are the invariant of every state (`exists_sweepAfter?`), read
as bounds and as columns of the chart. For the third, the number of turns is below the limit while
the word is not over (`lt_turnLimit`), so from the limit on the position is behind the word. -/
theorem sweep_exact (g : Grammar) (word : List Name) :
    (∀ m, ∃ s, g.sweepAfter? word m = some s ∧ s.Bounded (.ofGrammar g word)) ∧
    (∀ m s t, g.sweepAfter? word m = some s → g.sweepAfter? word (m + 1) = some t →
      ∀ k < s.position, t.items[k]? = s.items[k]? ∧ t.seen[k]? = s.seen[k]?) ∧
    ∀ m s, (Earley.ofGrammar g word).turnLimit ≤ m → g.sweepAfter? word m = some s →
      s.position = word.length + 1 ∧
        (∀ k ≤ word.length, s.items[k]? = some ((Earley.ofGrammar g word).column k).items) ∧
        (Earley.ofGrammar g word).answer? s = some (g.derives word) := by
  have hprep := Earley.prepares_ofGrammar g word
  refine ⟨fun m => ?_, fun m s t hs ht k hk => ?_, fun m s hm hs => ?_⟩
  · obtain ⟨columns, k, q, hsweep, hfollows, hk, -⟩ := Earley.exists_sweepAfter? hprep m
    exact ⟨_, hsweep, hfollows.bounded hprep hk⟩
  · rw [Grammar.sweepAfter?] at hs ht
    rw [Earley.sweepAfter?, hs, Option.bind_some] at ht
    exact Earley.getElem?_of_turn? hprep hs ht hk
  · obtain ⟨columns, k, q, hsweep, hfollows, hk, hle⟩ := Earley.exists_sweepAfter? hprep m
    obtain rfl := Option.some.inj (hsweep.symm.trans hs)
    obtain rfl : k = (Earley.ofGrammar g word).word.size + 1 := by
      by_contra hne
      have hk : k ≤ (Earley.ofGrammar g word).word.size := by omega
      exact absurd (hfollows.lt_turnLimit hk (hle hk)) (Nat.not_lt.2 hm)
    have hsize : (Earley.ofGrammar g word).word.size = word.length := List.size_toArray
    refine ⟨congrArg (· + 1) hsize, fun k hk => ?_, hfollows.answer?_eq hprep⟩
    have hlt : k < (Earley.ofGrammar g word).word.size + 1 := by omega
    rw [Sweep.getElem?_items_ofColumns hlt, hfollows.before k hlt]

end Grammar

end ChomskyForm
