import ChomskyForm.Proofs.Analyses
import ChomskyForm.Recognition.Earley

set_option autoImplicit false
set_option relaxedAutoImplicit false

/-!
# Items and their consequences

An item of column `k` is sound when its rule has matched, up to the dot, the segment of the word
from its origin to position `k`. The consequences of an item in its own column are a completion, a
prediction, or the item itself moved on past something that generates the empty word; in the next
column it is moved on past a letter. Consequences of sound items are sound.

## Main definitions

* `ChomskyForm.segment`: a part of a word.
* `ChomskyForm.Earley.Prepares`: what recognition needs to know about a grammar.
* `ChomskyForm.Earley.Sound`: sound items.
* `ChomskyForm.Earley.Adds`: the consequences of an item in its own column.

## Main results

* `ChomskyForm.Earley.mem_within`, `ChomskyForm.Earley.mem_ahead`: what an item adds to its column
  and to the next one.
* `ChomskyForm.Earley.Adds.sound`, `ChomskyForm.Earley.Sound.ahead`: consequences of sound items are
  sound.
-/

namespace ChomskyForm

/-! ## Segments of a word -/

/-- **The segment of a word** from position `o` to position `k`. It is empty where `k` is not
greater than `o`. -/
def segment (word : List Name) (o k : Nat) : List Name := (word.drop o).take (k - o)

section Segment

variable {word : List Name} {o m k : Nat}

/-- Between a position and itself there is nothing. -/
@[simp] lemma segment_self : segment word o o = [] := by
  rw [segment, Nat.sub_self, List.take_zero]

/-- **Neighbouring segments** make up a longer one. -/
lemma segment_append (ho : o ≤ m) (hm : m ≤ k) :
    segment word o m ++ segment word m k = segment word o k := by
  have hlen : k - o = (m - o) + (k - m) := by omega
  have hdrop : word.drop m = (word.drop o).drop (m - o) := by
    rw [List.drop_drop]
    congr 1
    omega
  rw [segment, segment, segment, hlen, List.take_add, hdrop]

/-- The segment of one letter. -/
lemma segment_succ {a : Name} (h : word[k]? = some a) : segment word k (k + 1) = [a] := by
  obtain ⟨hlt, rfl⟩ := List.getElem?_eq_some_iff.1 h
  rw [segment, List.drop_eq_getElem_cons hlt, Nat.add_sub_cancel_left, List.take_succ_cons,
    List.take_zero]

/-- The whole word is the segment from its beginning to its end. -/
@[simp] lemma segment_length : segment word 0 word.length = word := by
  rw [segment, List.drop_zero, Nat.sub_zero, List.take_length]

end Segment

/-! ## Columns -/

namespace Column

variable {c : Column}

/-- An item of a column is one of its list of items. -/
instance : Membership Item Column := ⟨fun c i => i ∈ c.items.toList⟩

/-- **Membership** in a column is membership in the list of its items. -/
lemma mem_def {i : Item} : i ∈ c ↔ i ∈ c.items.toList := Iff.rfl

/-- The column without items has none. -/
@[simp] lemma notMem_empty (i : Item) : i ∉ (∅ : Column) := by
  rw [mem_def]
  exact List.not_mem_nil

/-- An item of a column has a place in it. Places are what the extension of a column counts. -/
lemma mem_iff_getElem? {i : Item} : i ∈ c ↔ ∃ p : Nat, c.items[p]? = some i := by
  rw [mem_def, Array.mem_toList_iff, Array.mem_iff_getElem?]

/-- **Places are kept.** Adding an item does not change the places of the items that are there. -/
lemma getElem?_push {i j : Item} {p : Nat} (h : c.items[p]? = some j) :
    (c.push i).items[p]? = some j := by
  unfold push
  split
  · exact h
  · obtain ⟨hlt, -⟩ := Array.getElem?_eq_some_iff.1 h
    rwa [Array.getElem?_push_lt hlt, ← Array.getElem?_eq_getElem hlt]

/-- Adding items does not change the places of the items that are there. -/
lemma getElem?_pushAll {items : List Item} {j : Item} {p : Nat} (h : c.items[p]? = some j) :
    (c.pushAll items).items[p]? = some j := by
  unfold pushAll
  induction items generalizing c with
  | nil => exact h
  | cons i items ih => exact ih (getElem?_push h)

/-- A place of a column that was there before items were added holds what it held. -/
lemma getElem?_of_pushAll {items : List Item} {j : Item} {p : Nat} (hp : p < c.items.size)
    (h : (c.pushAll items).items[p]? = some j) : c.items[p]? = some j := by
  have hold := Array.getElem?_eq_getElem hp
  rwa [getElem?_pushAll hold, ← hold] at h

end Column

namespace Earley

variable {g : Grammar} {e : Earley} {k : Nat} {i : Item}

/-! ## Sound items -/

/-- **Preparation for a grammar.** The rules and the nullable variables are those of the grammar.
This is all that the proofs about the chart use; how the rules are ordered does not matter. -/
structure Prepares (e : Earley) (g : Grammar) : Prop where
  /-- The rules are those of the grammar. -/
  rules : ∀ r, r ∈ e.rules.toList ↔ r.right ∈ g.alternatives r.left
  /-- The nullable variables are those that generate the empty word. -/
  nullable : ∀ v, v ∈ e.nullable ↔ g.Generates [.nonterminal v] []
  /-- The start symbol is that of the grammar. -/
  start : e.start = g.start

/-- Recognition is prepared for the grammar that it was made for: rules are the grammar's rules,
and nullable variables are those that generate the empty word. -/
lemma prepares_ofGrammar (g : Grammar) (word : List Name) : (ofGrammar g word).Prepares g where
  rules _ := Grammar.mem_rules
  nullable _ := Grammar.mem_nullable
  start := rfl

/-- **Sound items** of column `k`: what comes before the dot generates the segment from the origin
to position `k`. The dot is within the right-hand side, so that only finitely many items are
sound. -/
structure Sound (e : Earley) (g : Grammar) (k : Nat) (i : Item) : Prop where
  /-- The item began at the position or before it. -/
  origin_le : i.origin ≤ k
  /-- What stands before the dot generates the segment in between. -/
  generates : ∃ r, e.rule? i = some r ∧ i.dot ≤ r.right.length ∧
    g.Generates (r.right.take i.dot) (segment e.word.toList i.origin k)

/-- The symbol after the dot of an item stands in its rule. -/
lemma expected?_eq_some {s : Symbol} :
    e.expected? i = some s ↔ ∃ r, e.rule? i = some r ∧ r.right[i.dot]? = some s := by
  rw [expected?, Option.bind_eq_some_iff]

/-- **Moving on.** A sound item stays sound when the symbol after its dot generates the segment
that comes next.

**Proof sketch.** With one symbol more before the dot, the matched part is the old one with that
symbol appended. The old part generates the segment up to `m`, the symbol that from `m` to `k`, and
the two segments make up the one from the origin to `k`. -/
lemma Sound.advance {m : Nat} (h : e.Sound g m i) (hk : m ≤ k) {s : Symbol}
    (hs : e.expected? i = some s) (hgen : g.Generates [s] (segment e.word.toList m k)) :
    e.Sound g k i.advance := by
  obtain ⟨ho, r, hr, hdot, hmatched⟩ := h
  obtain ⟨r', hr', hs⟩ := expected?_eq_some.1 hs
  obtain rfl : r = r' := Option.some.inj (hr.symm.trans hr')
  obtain ⟨hlt, rfl⟩ := List.getElem?_eq_some_iff.1 hs
  refine ⟨Nat.le_trans ho hk, r, hr, hlt, ?_⟩
  have htake : r.right.take i.advance.dot = r.right.take i.dot ++ [r.right[i.dot]] :=
    List.take_succ_eq_append_getElem hlt
  rw [htake]
  exact Grammar.generates_append.2 ⟨_, _, (segment_append ho hk).symm, hmatched, hgen⟩

/-- A predicted item is sound: before its dot there is nothing, and from `k` to `k` there is
nothing either. -/
lemma sound_predicted {n : Nat} {r : Rule} (hr : e.rules[n]? = some r) :
    e.Sound g k ⟨n, 0, k⟩ := by
  refine ⟨Nat.le_refl k, r, hr, Nat.zero_le _, ?_⟩
  rw [List.take_zero, segment_self]
  exact .nil

/-- **What a complete item shows.** The left-hand side of a sound item that is complete generates
the segment from the item's origin. -/
lemma Sound.generates_left (h : e.Sound g k i) (hprep : e.Prepares g) {r : Rule}
    (hr : e.rule? i = some r) (hdone : r.right[i.dot]? = none) :
    g.Generates [.nonterminal r.left] (segment e.word.toList i.origin k) := by
  obtain ⟨-, r', hr', -, hmatched⟩ := h
  obtain rfl : r = r' := Option.some.inj (hr.symm.trans hr')
  rw [List.take_of_length_le (List.getElem?_eq_none_iff.1 hdone)] at hmatched
  have hmem : r ∈ e.rules.toList := by
    rw [Array.mem_toList_iff]
    exact Array.mem_of_getElem? hr
  exact Grammar.generates_nonterminal.2 ⟨r.right, (hprep.rules r).1 hmem, hmatched⟩

/-! ## Consequences -/

/-- **The consequences of an item** of column `k` in this column, given the columns up to it. There
are four of them, one for each way in which no letter is read. -/
inductive Adds (e : Earley) (columns : Nat → Column) (k : Nat) (i : Item) : Item → Prop where
  /-- A complete item moves on the items that expect its left-hand side. -/
  | complete {r : Rule} {i' : Item} (hr : e.rule? i = some r) (hdone : r.right[i.dot]? = none)
      (hi' : i' ∈ columns i.origin) (h : e.expected? i' = some (.nonterminal r.left)) :
      Adds e columns k i i'.advance
  /-- The rules of an expected variable begin. -/
  | predict {n : Nat} {r : Rule} (h : e.expected? i = some (.nonterminal r.left))
      (hr : e.rules[n]? = some r) : Adds e columns k i ⟨n, 0, k⟩
  /-- An expected variable that is nullable may be passed over. -/
  | skip {v : Name} (h : e.expected? i = some (.nonterminal v)) (hv : v ∈ e.nullable) :
      Adds e columns k i i.advance
  /-- The mark for the empty word is passed over. -/
  | mark (h : e.expected? i = some .epsilon) : Adds e columns k i i.advance

/-- The items that complete an item of a column are those that expect its left-hand side. -/
lemma mem_complete {column : Column} {v : Name} {x : Item} :
    x ∈ e.complete column v ↔
      ∃ i' ∈ column, e.expected? i' = some (.nonterminal v) ∧ i'.advance = x := by
  simp [complete, Column.mem_def, and_assoc]

/-- The predicted items are the beginnings of the rules of a variable. -/
lemma mem_predict {v : Name} {x : Item} :
    x ∈ e.predict k v ↔ ∃ n r, e.rules[n]? = some r ∧ r.left = v ∧ ⟨n, 0, k⟩ = x := by
  simp only [predict, rulesFor, List.mem_map, List.mem_filter, List.mem_range, Option.any_eq_true,
    decide_eq_true_eq]
  constructor
  · rintro ⟨n, ⟨-, r, hr, hv⟩, hx⟩
    exact ⟨n, r, hr, hv, hx⟩
  · rintro ⟨n, r, hr, hv, hx⟩
    obtain ⟨hlt, -⟩ := Array.getElem?_eq_some_iff.1 hr
    exact ⟨n, ⟨hlt, r, hr, hv⟩, hx⟩

/-- **What an item adds to its column** are its consequences.

**Proof sketch.** The list and the relation go by the same cases: by the item's rule, and by the
symbol after the dot. Each case of the relation fixes that symbol, and so the branch of the list;
the other way round, each branch gives one case of the relation, a variable giving two. -/
theorem mem_within {columns : Nat → Column} {x : Item} :
    x ∈ e.within columns k i ↔ e.Adds columns k i x := by
  unfold within
  constructor
  · intro hx
    split at hx
    · cases hx
    · next r hr =>
      split at hx
      · next hdone =>
        obtain ⟨i', hi', h, rfl⟩ := mem_complete.1 hx
        exact .complete hr hdone hi' h
      · next v hv =>
        have hexpected : e.expected? i = some (.nonterminal v) := expected?_eq_some.2 ⟨r, hr, hv⟩
        rcases List.mem_append.1 hx with hx | hx
        · obtain ⟨n, r, hr, rfl, rfl⟩ := mem_predict.1 hx
          exact .predict hexpected hr
        · split at hx
          · next hnull =>
            obtain rfl := List.mem_singleton.1 hx
            exact .skip hexpected hnull
          · cases hx
      · next hmark =>
        obtain rfl := List.mem_singleton.1 hx
        exact .mark (expected?_eq_some.2 ⟨r, hr, hmark⟩)
      · cases hx
  · intro hx
    cases hx with
    | complete hr hdone hi' h =>
      simp only [hr, hdone]
      exact mem_complete.2 ⟨_, hi', h, rfl⟩
    | predict h hr =>
      obtain ⟨r', hr', hv⟩ := expected?_eq_some.1 h
      simp only [hr', hv]
      exact List.mem_append_left _ (mem_predict.2 ⟨_, _, hr, rfl, rfl⟩)
    | skip h hnull =>
      obtain ⟨r, hr, hv⟩ := expected?_eq_some.1 h
      simp only [hr, hv, if_pos hnull]
      exact List.mem_append_right _ (List.mem_singleton.2 rfl)
    | mark h =>
      obtain ⟨r, hr, hmark⟩ := expected?_eq_some.1 h
      simp only [hr, hmark]
      exact List.mem_singleton.2 rfl

/-- **What an item adds to the next column** is itself, moved on past the letter that comes next,
if that is the letter it expects. There is at most one such item.

**Proof sketch.** By cases on what the item expects: only a terminal can be moved past, and only if
it is the letter at this position of the word. -/
theorem mem_ahead {x : Item} :
    x ∈ e.ahead k i ↔
      ∃ a, e.expected? i = some (.terminal a) ∧ e.word[k]? = some a ∧ x = i.advance := by
  unfold ahead
  split
  · next a ha =>
    constructor
    · intro hx
      split at hx
      · next hword => exact ⟨a, ha, hword, List.mem_singleton.1 hx⟩
      · cases hx
    · rintro ⟨b, hb, hword, rfl⟩
      obtain rfl : a = b := by simpa [ha] using hb
      rw [if_pos hword]
      exact List.mem_singleton.2 rfl
  · next hnone =>
    constructor
    · intro hx
      cases hx
    · rintro ⟨a, ha, -, -⟩
      exact absurd ha (hnone a)

/-- More items in the columns have more consequences. Only completions look at the columns. -/
lemma Adds.mono {columns columns' : Nat → Column} (hsub : ∀ o, ∀ j ∈ columns o, j ∈ columns' o)
    {x : Item} (h : e.Adds columns k i x) : e.Adds columns' k i x := by
  cases h with
  | complete hr hdone hi' h => exact .complete hr hdone (hsub _ _ hi') h
  | predict h hr => exact .predict h hr
  | skip h hv => exact .skip h hv
  | mark h => exact .mark h

/-- **Consequences of sound items are sound.**

**Proof sketch.** One case for each way to add an item. A completion joins the segment of the item
that waited with that of the item that is complete, which its left-hand side generates. The other
three read nothing: a predicted item has matched nothing yet, a nullable variable generates the
empty word, and so does the mark. -/
lemma Adds.sound {columns : Nat → Column} {x : Item} (hprep : e.Prepares g)
    (hcolumns : ∀ o ≤ k, ∀ j ∈ columns o, e.Sound g o j) (hi : e.Sound g k i)
    (h : e.Adds columns k i x) : e.Sound g k x := by
  cases h with
  | complete hr hdone hi' h =>
    have hleft := hi.generates_left hprep hr hdone
    exact (hcolumns _ hi.origin_le _ hi').advance hi.origin_le h hleft
  | predict _ hr => exact sound_predicted hr
  | @skip v h hv =>
    refine hi.advance (Nat.le_refl k) h ?_
    rw [segment_self]
    exact (hprep.nullable v).1 hv
  | mark h =>
    refine hi.advance (Nat.le_refl k) h ?_
    rw [segment_self]
    exact .epsilon .nil

/-- **What a sound item adds to the next column is sound**: the segment is longer by the letter
that was read. -/
lemma Sound.ahead (hi : e.Sound g k i) {x : Item} (hx : x ∈ e.ahead k i) :
    e.Sound g (k + 1) x := by
  obtain ⟨a, ha, hword, rfl⟩ := mem_ahead.1 hx
  refine hi.advance (Nat.le_succ k) ha ?_
  rw [segment_succ (by rw [Array.getElem?_toList, hword])]
  exact .terminal a .nil

end Earley

end ChomskyForm
