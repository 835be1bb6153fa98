import Mathlib.Data.List.Perm.Subperm
import ChomskyForm.Proofs.Items

set_option autoImplicit false
set_option relaxedAutoImplicit false

/-!
# The chart has all consequences

A column of sound items has each of them at most once, and there are only so many, so the rounds
that its extension is given are enough to go through all of its items. In the end it has all
consequences of its items, apart from completions that begin in the column itself.

## Main definitions

* `ChomskyForm.Earley.Closing`: the invariant of the extension of a column.
* `ChomskyForm.Earley.Closed`: columns with all those consequences.
* `ChomskyForm.Earley.column`: the columns of the chart.

## Main results

* `ChomskyForm.Earley.size_le_capacity`: a column of sound items is within its capacity.
* `ChomskyForm.Earley.Closing.step`, `ChomskyForm.Earley.close_spec`: the extension of a column goes
  through all of its items.
* `ChomskyForm.Earley.closed_column`: every column of the chart is closed.
-/

namespace ChomskyForm

namespace Earley

variable {g : Grammar} {e : Earley} {k : Nat} {i : Item}

/-! ## Capacity -/

/-- **The items that a column can hold**, for rules that are counted from `n` on: any dot up to the
length of the right-hand side, and any origin up to `k`. -/
def candidates (k : Nat) : Nat → List Rule → List Item
  | _, [] => []
  | n, r :: rules =>
    ((List.range (r.right.length + 1)).flatMap fun d => (List.range (k + 1)).map fun o => ⟨n, d, o⟩)
      ++ candidates k (n + 1) rules

/-- The capacity of a column is the number of candidates. For each rule there are `k + 1` origins
for each of its dots. -/
lemma length_candidates (k n : Nat) (rules : List Rule) :
    (candidates k n rules).length =
      (k + 1) * rules.foldr (fun r m => r.right.length + 1 + m) 0 := by
  induction rules generalizing n with
  | nil => rfl
  | cons r rules ih =>
    rw [candidates, List.length_append, ih, List.foldr_cons, Nat.mul_add]
    simp [List.length_flatMap, Nat.mul_comm]

/-- **An item of a rule is among the candidates**, if its dot is within the rule and its origin is
not behind the column. The rules are counted from `n` on, which is what the induction on them
needs. -/
lemma mem_candidates {rules : List Rule} {p d o n : Nat} {r : Rule} (hr : rules[p]? = some r)
    (hd : d ≤ r.right.length) (ho : o ≤ k) : ⟨n + p, d, o⟩ ∈ candidates k n rules := by
  induction rules generalizing n p with
  | nil => cases hr
  | cons r' rules ih =>
    rw [candidates, List.mem_append]
    cases p with
    | zero =>
      obtain rfl : r' = r := Option.some.inj hr
      refine .inl (List.mem_flatMap.2 ⟨d, List.mem_range.2 (by omega), ?_⟩)
      exact List.mem_map.2 ⟨o, List.mem_range.2 (by omega), rfl⟩
    | succ p =>
      have hmem := ih (n := n + 1) (p := p) hr
      rw [Nat.add_right_comm] at hmem
      exact .inr hmem

/-- **A column of sound items is within its capacity**, since it has no item twice and all of them
are candidates. -/
theorem size_le_capacity {column : Column} (h : ∀ i ∈ column, e.Sound g k i) :
    column.items.size ≤ e.capacity k := by
  have hsub : column.items.toList ⊆ candidates k 0 e.rules.toList := by
    intro i hi
    obtain ⟨ho, r, hr, hdot, -⟩ := h i hi
    have hmem := mem_candidates (n := 0) (by rw [Array.getElem?_toList]; exact hr) hdot ho
    rwa [Nat.zero_add] at hmem
  have hlen := (column.nodup.subperm hsub).length_le
  rw [length_candidates] at hlen
  exact hlen

/-! ## The extension of a column -/

section Extension

/-- **The columns that can be seen** from column `k`: those before it, and itself as far as it
goes. Beyond these nothing is seen, and no sound item looks there. -/
def visible (before : Array Column) (k : Nat) (column : Column) (origin : Nat) : Column :=
  if origin = k then column else (before[origin]?).getD ∅

/-- **The invariant of the extension of a column**, when its first `j` items have been gone through:
all items are sound, and the consequences of these items have been added, apart from completions
that begin in the column itself. -/
structure Closing (e : Earley) (g : Grammar) (before : Array Column) (k j : Nat)
    (column next : Column) : Prop where
  /-- The items of the column are sound. -/
  sound : ∀ i ∈ column, e.Sound g k i
  /-- The items of the next column are sound. -/
  sound_next : ∀ i ∈ next, e.Sound g (k + 1) i
  /-- The consequences in the column are there. -/
  within : ∀ p < j, ∀ i, column.items[p]? = some i →
    ∀ x ∈ e.within (visible before k ∅) k i, x ∈ column
  /-- The consequences in the next column are there. -/
  ahead : ∀ p < j, ∀ i, column.items[p]? = some i → ∀ x ∈ e.ahead k i, x ∈ next

variable {before : Array Column} {j : Nat} {column next : Column}

/-- A column of sound items can be extended; none of them has been gone through, so nothing needs
to have been added. -/
lemma Closing.of_sound (h : ∀ i ∈ column, e.Sound g k i) : Closing e g before k 0 column ∅ where
  sound := h
  sound_next i hi := absurd hi (Column.notMem_empty i)
  within p hp := absurd hp (Nat.not_lt_zero p)
  ahead p hp := absurd hp (Nat.not_lt_zero p)

/-- What can be seen from a column without its own items can be seen with them. -/
lemma mem_visible {o : Nat} (h : i ∈ visible before k ∅ o) : i ∈ visible before k column o := by
  unfold visible at h ⊢
  split at h
  · exact absurd h (Column.notMem_empty i)
  · next hne => rwa [if_neg hne]

/-- What can be seen from a column is sound for the position where it is seen. -/
lemma Closing.sound_visible (h : Closing e g before k j column next)
    (hbefore : ∀ o < k, ∀ i ∈ (before[o]?).getD ∅, e.Sound g o i) {o : Nat} (ho : o ≤ k)
    (hi : i ∈ visible before k column o) : e.Sound g o i := by
  unfold visible at hi
  split at hi
  · next heq =>
    subst heq
    exact h.sound i hi
  · exact hbefore o (by omega) i hi

/-- **One item** is gone through.

**Proof sketch.** The items that are added are consequences of a sound item. The items up to the
present one stay in their places; what those before it add is there by the invariant, and what it
adds itself has just been added. -/
lemma Closing.step (h : Closing e g before k j column next) (hprep : e.Prepares g)
    (hbefore : ∀ o < k, ∀ i ∈ (before[o]?).getD ∅, e.Sound g o i)
    (hi : column.items[j]? = some i) :
    Closing e g before k (j + 1) (column.pushAll (e.within (visible before k column) k i))
      (next.pushAll (e.ahead k i)) := by
  have hsound : e.Sound g k i := h.sound i (Column.mem_iff_getElem?.2 ⟨j, hi⟩)
  -- an item among the first `j + 1` was gone through before or is the present one
  have hplace : ∀ p < j + 1, ∀ y,
      (column.pushAll (e.within (visible before k column) k i)).items[p]? = some y →
        p < j ∧ column.items[p]? = some y ∨ p = j ∧ y = i := by
    intro p hp y hy
    obtain ⟨hlt, -⟩ := Array.getElem?_eq_some_iff.1 hi
    have hy := Column.getElem?_of_pushAll (by omega) hy
    rcases Nat.lt_or_eq_of_le (Nat.le_of_lt_succ hp) with hp | rfl
    · exact .inl ⟨hp, hy⟩
    · exact .inr ⟨rfl, Option.some.inj (hy.symm.trans hi)⟩
  refine ⟨?_, ?_, ?_, ?_⟩
  · intro x hx
    rcases Column.mem_pushAll.1 hx with hx | hx
    · exact h.sound x hx
    · exact (mem_within.1 hx).sound hprep (fun o ho _ => h.sound_visible hbefore ho) hsound
  · intro x hx
    rcases Column.mem_pushAll.1 hx with hx | hx
    · exact h.sound_next x hx
    · exact hsound.ahead hx
  · intro p hp y hy x hx
    refine Column.mem_pushAll.2 ?_
    rcases hplace p hp y hy with ⟨hp, hy⟩ | ⟨rfl, rfl⟩
    · exact .inl (h.within p hp y hy x hx)
    · exact .inr (mem_within.2 ((mem_within.1 hx).mono fun _ _ => mem_visible))
  · intro p hp y hy x hx
    refine Column.mem_pushAll.2 ?_
    rcases hplace p hp y hy with ⟨hp, hy⟩ | ⟨rfl, rfl⟩
    · exact .inl (h.ahead p hp y hy x hx)
    · exact .inr hx

/-- **Closed columns** are sound and have all consequences of their items, apart from completions
that begin in them. -/
structure Closed (e : Earley) (g : Grammar) (columns : Nat → Column) (k : Nat)
    (column next : Column) : Prop where
  /-- The items of the column are sound. -/
  sound : ∀ i ∈ column, e.Sound g k i
  /-- The items of the next column are sound. -/
  sound_next : ∀ i ∈ next, e.Sound g (k + 1) i
  /-- The consequences in the column are there. -/
  within : ∀ i ∈ column, ∀ x, e.Adds columns k i x → x ∈ column
  /-- The consequences in the next column are there. -/
  ahead : ∀ i ∈ column, ∀ x ∈ e.ahead k i, x ∈ next

/-- **A column is closed when all of its items have been gone through**, since every item has its
place among those that have. -/
lemma Closing.closed (h : Closing e g before k j column next) (hsize : column.items.size ≤ j) :
    Closed e g (visible before k ∅) k column next := by
  have hplace : ∀ i ∈ column, ∃ p < j, column.items[p]? = some i := by
    intro i hi
    obtain ⟨p, hp⟩ := Column.mem_iff_getElem?.1 hi
    obtain ⟨hlt, -⟩ := Array.getElem?_eq_some_iff.1 hp
    exact ⟨p, by omega, hp⟩
  refine ⟨h.sound, h.sound_next, fun i hi x hx => ?_, fun i hi x hx => ?_⟩
  · obtain ⟨p, hp, hplace⟩ := hplace i hi
    exact h.within p hp i hplace x (mem_within.2 hx)
  · obtain ⟨p, hp, hplace⟩ := hplace i hi
    exact h.ahead p hp i hplace x hx

/-- **The extension of a column** goes through all of its items.

**Proof sketch.** Induction on the rounds, with the invariant that the first items have been gone
through. When the rounds are used up, as many items have been gone through as the column can
hold. -/
theorem close_spec (hprep : e.Prepares g)
    (hbefore : ∀ o < k, ∀ i ∈ (before[o]?).getD ∅, e.Sound g o i) (rounds : Nat)
    (h : Closing e g before k j column next) (hrounds : e.capacity k ≤ rounds + j) :
    Closed e g (visible before k ∅) k (e.close before k rounds j column next).1
        (e.close before k rounds j column next).2 ∧
      ∀ i ∈ column, i ∈ (e.close before k rounds j column next).1 := by
  induction rounds generalizing j column next with
  | zero =>
    have hcapacity := size_le_capacity h.sound
    have hsize : column.items.size ≤ j := by omega
    exact ⟨h.closed hsize, fun i hi => hi⟩
  | succ rounds ih =>
    unfold close
    split
    · next hnone =>
      exact ⟨h.closed (Array.getElem?_eq_none_iff.1 hnone), fun i hi => hi⟩
    · next i hi =>
      obtain ⟨hclosed, hsub⟩ := ih (h.step hprep hbefore hi) (by omega)
      exact ⟨hclosed, fun x hx => hsub x (Column.mem_pushAll.2 (.inl hx))⟩

end Extension

/-! ## The columns of the chart -/

/-- The columns before column `k`, all of them extended. -/
def before (e : Earley) : Nat → Array Column
  | 0 => #[]
  | k + 1 => (e.chart k).1

/-- What is in column `k` before its extension: the rules of the start symbol in the first column,
and what the column before it has found in any other one. -/
def initial (e : Earley) : Nat → Column
  | 0 => Column.empty.pushAll (e.predict 0 e.start)
  | k + 1 => (e.chart k).2

/-- Column `k` after its extension, with what is then known of the next one. -/
def extension (e : Earley) (k : Nat) : Column × Column :=
  e.close (e.before k) k (e.capacity k) 0 (e.initial k) ∅

/-- **The columns of the chart.** -/
def column (e : Earley) (k : Nat) : Column := (e.extension k).1

/-- The chart is made of the columns before the last one, the last one, and what is known of the
next. -/
lemma chart_eq (e : Earley) (k : Nat) :
    e.chart k = ((e.before k).push (e.column k), (e.extension k).2) := by
  cases k <;> rfl

/-- The columns before the next column are those before the present one, and the present one. -/
lemma before_succ (e : Earley) (k : Nat) : e.before (k + 1) = (e.before k).push (e.column k) := by
  rw [before, chart_eq]

/-- There are as many columns before a column as there are positions. -/
@[simp] lemma size_before (e : Earley) (k : Nat) : (e.before k).size = k := by
  induction k with
  | zero => rfl
  | succ k ih => rw [before_succ, Array.size_push, ih]

/-- The columns before a column are those of the chart. -/
lemma getElem?_before {o : Nat} (ho : o < k) : (e.before k)[o]? = some (e.column o) := by
  induction k with
  | zero => omega
  | succ k ih =>
    rw [before_succ]
    rcases Nat.lt_or_eq_of_le (Nat.le_of_lt_succ ho) with ho | rfl
    · rw [Array.getElem?_push_lt (by rwa [size_before]), ← Array.getElem?_eq_getElem, ih ho]
    · have hlast : ((e.before o).push (e.column o))[(e.before o).size]? = some (e.column o) :=
        Array.getElem?_push_size
      rwa [size_before] at hlast

/-- What can be seen in a column before the present one is that column of the chart, whatever the
present one holds. -/
lemma visible_before {column : Column} {o : Nat} (ho : o < k) :
    visible (e.before k) k column o = e.column o := by
  rw [visible, if_neg (Nat.ne_of_lt ho), getElem?_before ho]
  rfl

/-- **Every column of the chart is closed**, and has the items that it had before its extension.

**Proof sketch.** Strong induction on the position: the items of the columns before a column are
sound, and so are the items that the last one of them has added to it. -/
theorem closed_column (hprep : e.Prepares g) (k : Nat) :
    Closed e g (visible (e.before k) k ∅) k (e.column k) (e.initial (k + 1)) ∧
      ∀ i ∈ e.initial k, i ∈ e.column k := by
  induction k using Nat.strongRecOn with
  | ind k ih =>
    have hbefore : ∀ o < k, ∀ i ∈ ((e.before k)[o]?).getD ∅, e.Sound g o i := by
      intro o ho i hi
      rw [getElem?_before ho] at hi
      exact (ih o ho).1.sound i hi
    have hinitial : ∀ i ∈ e.initial k, e.Sound g k i := by
      intro i hi
      cases k with
      | zero =>
        rcases Column.mem_pushAll.1 hi with hi | hi
        · exact absurd hi (Column.notMem_empty i)
        · obtain ⟨n, r, hr, -, rfl⟩ := mem_predict.1 hi
          exact sound_predicted hr
      | succ k => exact (ih k (Nat.lt_succ_self k)).1.sound_next i hi
    have hnext : e.initial (k + 1) = (e.extension k).2 := by rw [initial, chart_eq]
    rw [hnext]
    exact close_spec hprep hbefore (e.capacity k) (.of_sound hinitial) (Nat.le_refl _)

/-- **The items of a column are sound.** This is one half of the correctness of the chart. -/
lemma sound_of_mem_column (hprep : e.Prepares g) (h : i ∈ e.column k) : e.Sound g k i :=
  (closed_column hprep k).1.sound i h

/-- The rules of the start symbol begin in the first column. -/
lemma start_mem_column (hprep : e.Prepares g) {n : Nat} {r : Rule} (hr : e.rules[n]? = some r)
    (hstart : r.left = e.start) : ⟨n, 0, 0⟩ ∈ e.column 0 := by
  refine (closed_column hprep 0).2 _ (Column.mem_pushAll.2 (.inr ?_))
  exact mem_predict.2 ⟨n, r, hr, hstart, rfl⟩

/-- The consequences of an item are in its column, apart from completions that begin in it. The
other half of the correctness rests on this and the next two lemmas. -/
lemma added_mem_column (hprep : e.Prepares g) (h : i ∈ e.column k) {x : Item}
    (hx : e.Adds (visible (e.before k) k ∅) k i x) : x ∈ e.column k :=
  (closed_column hprep k).1.within i h x hx

/-- An item that expects the next letter is moved on past it. -/
lemma scanned_mem_column (hprep : e.Prepares g) (h : i ∈ e.column k) {a : Name}
    (ha : e.expected? i = some (.terminal a)) (hword : e.word[k]? = some a) :
    i.advance ∈ e.column (k + 1) := by
  refine (closed_column hprep (k + 1)).2 _ ((closed_column hprep k).1.ahead i h _ ?_)
  exact mem_ahead.2 ⟨a, ha, hword, rfl⟩

/-- An item that expects a variable is moved on past it by an item that completes it, if that one
began in an earlier column. -/
lemma completed_mem_column (hprep : e.Prepares g) (h : i ∈ e.column k) {r : Rule} {i' : Item}
    (hr : e.rule? i = some r) (hdone : r.right[i.dot]? = none) (ho : i.origin < k)
    (hi' : i' ∈ e.column i.origin) (h' : e.expected? i' = some (.nonterminal r.left)) :
    i'.advance ∈ e.column k := by
  refine added_mem_column hprep h (.complete hr hdone ?_ h')
  rw [visible_before ho]
  exact hi'

end Earley

end ChomskyForm
