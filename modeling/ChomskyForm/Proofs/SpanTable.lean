import ChomskyForm.Proofs.EmptyAlternatives
import ChomskyForm.Recognition.Table

set_option autoImplicit false
set_option relaxedAutoImplicit false

/-!
# The table of spans is exact

For a grammar in Chomsky normal form, a span of the table holds exactly the variables that generate
that part of the word without empty alternatives. A part of one letter is generated by an
alternative that is a single terminal. A longer one is generated by a pair of variables, each of
which generates a part of it that is not empty; both parts are shorter, so their spans are known
already.

## Main definitions

* `ChomskyForm.Grammar.NormalShape`: the alternatives that Chomsky normal form admits.
* `ChomskyForm.SpanTable.Exact`: tables that are correct up to some length of spans.

## Main results

* `ChomskyForm.Grammar.generates_letter_iff`, `ChomskyForm.Grammar.generates_pair_iff`: how a word
  is generated by a grammar in Chomsky normal form.
* `ChomskyForm.Grammar.exact_spanTable`: the table of a word is correct.
* `ChomskyForm.Grammar.exists_cykAccepts`: what recognition by a table decides.
* `ChomskyForm.Grammar.Purged.cykAccepts_spec`: for purged grammars it decides the generated words.
-/

namespace ChomskyForm

namespace Grammar

variable {g : Grammar}

/-! ## Generation in Chomsky normal form -/

/-- **Alternatives that Chomsky normal form admits**: an empty one of the start symbol, a single
terminal, a pair of variables. The check for Chomsky normal form looks at one alternative after the
other; proofs split into these three cases. -/
inductive NormalShape (g : Grammar) (v : Name) : List Symbol → Prop where
  /-- The empty alternative, which only the start symbol may have. -/
  | empty (h : v = g.start) : NormalShape g v []
  /-- A single terminal. -/
  | letter (a : Name) : NormalShape g v [.terminal a]
  /-- A pair of variables. -/
  | pair (x y : Name) : NormalShape g v [.nonterminal x, .nonterminal y]

/-- In a grammar in Chomsky normal form, all alternatives have such a shape: each one has passed
the check. -/
lemma normalShape_of_isNormal (h : g.isNormal = true) {v : Name} {right : List Symbol}
    (hr : right ∈ g.alternatives v) : g.NormalShape v right := by
  have hrule := List.all_eq_true.1 h ⟨v, right⟩ (mem_rules.2 hr)
  unfold isNormalRule at hrule
  split at hrule
  · next heq =>
    obtain rfl : right = [] := heq
    exact .empty (of_decide_eq_true hrule)
  · next a heq =>
    obtain rfl : right = [.terminal a] := heq
    exact .letter a
  · next x y heq =>
    obtain rfl : right = [.nonterminal x, .nonterminal y] := heq
    exact .pair x y
  · cases hrule

/-- In a grammar in Chomsky normal form, a variable generates no empty word without empty
alternatives, since every other alternative holds a symbol, and none is the mark of the empty
word. -/
lemma ne_nil_of_isNormal (h : g.isNormal = true) {v : Name} {w : List Name}
    (hgen : g.withoutEmpty.Generates [.nonterminal v] w) : w ≠ [] := by
  have hmark : ∀ v, ∀ right ∈ g.alternatives v, .epsilon ∉ right := by
    intro v right hr
    cases normalShape_of_isNormal h hr <;> simp
  exact ne_nil_of_generates_withoutEmpty hmark hgen (List.cons_ne_nil _ _) (by simp)

/-- **Two ways of generation.** Without empty alternatives, a variable generates a letter by a
single terminal, and other words by a pair of variables that generate parts which are not empty.

**Proof sketch.** The variable generates the word by one of its alternatives, which is not empty.
By its shape, this is a terminal, and then the word is one letter, or a pair, and then the word is
in two parts. -/
lemma generates_withoutEmpty_iff (h : g.isNormal = true) {v : Name} {w : List Name} :
    g.withoutEmpty.Generates [.nonterminal v] w ↔
      (∃ a, w = [a] ∧ [.terminal a] ∈ g.alternatives v) ∨
      ∃ x y u u', w = u ++ u' ∧ [.nonterminal x, .nonterminal y] ∈ g.alternatives v ∧
        g.withoutEmpty.Generates [.nonterminal x] u ∧
        g.withoutEmpty.Generates [.nonterminal y] u' := by
  rw [generates_nonterminal]
  constructor
  · rintro ⟨right, hr, hgen⟩
    obtain ⟨hr, hne⟩ := mem_alternatives_withoutEmpty.1 hr
    cases normalShape_of_isNormal h hr with
    | empty => exact absurd rfl hne
    | letter a => exact .inl ⟨a, generates_terminal.1 hgen, hr⟩
    | pair x y =>
      obtain ⟨u, u', rfl, hu, hu'⟩ := generates_cons.1 hgen
      exact .inr ⟨x, y, u, u', rfl, hr, hu, hu'⟩
  · rintro (⟨a, rfl, hr⟩ | ⟨x, y, u, u', rfl, hr, hu, hu'⟩)
    · have hr : [.terminal a] ∈ g.withoutEmpty.alternatives v :=
        mem_alternatives_withoutEmpty.2 ⟨hr, List.cons_ne_nil _ _⟩
      exact ⟨_, hr, generates_terminal.2 rfl⟩
    · have hr : [.nonterminal x, .nonterminal y] ∈ g.withoutEmpty.alternatives v :=
        mem_alternatives_withoutEmpty.2 ⟨hr, List.cons_ne_nil _ _⟩
      exact ⟨_, hr, generates_cons.2 ⟨u, u', rfl, hu, hu'⟩⟩

/-- **One letter** is generated by a single terminal. A pair cannot generate it, as each of its
parts would have at least one letter. -/
lemma generates_letter_iff (h : g.isNormal = true) {v a : Name} :
    g.withoutEmpty.Generates [.nonterminal v] [a] ↔ [.terminal a] ∈ g.alternatives v := by
  rw [generates_withoutEmpty_iff h]
  constructor
  · rintro (⟨b, hb, hr⟩ | ⟨x, y, u, u', heq, -, hu, hu'⟩)
    · obtain rfl := List.singleton_inj.1 hb
      exact hr
    · have hlen := congrArg List.length heq
      have hpos := List.length_pos_iff.2 (ne_nil_of_isNormal h hu)
      have hpos' := List.length_pos_iff.2 (ne_nil_of_isNormal h hu')
      rw [List.length_append, List.length_singleton] at hlen
      omega
  · exact fun hr => .inl ⟨a, rfl, hr⟩

/-- **A longer word** is generated by a pair of variables, cut somewhere inside. A word of `l + 2`
letters can be cut after `k + 1` of them for each `k ≤ l`, so that neither part is empty.

**Proof sketch.** The word is too long for a terminal, so it is generated by a pair. Neither of its
parts is empty, so the first one has `k + 1` letters for some `k ≤ l`, and both parts are found in
the word by their lengths. -/
lemma generates_pair_iff (h : g.isNormal = true) {v : Name} {w : List Name} {l : Nat}
    (hw : w.length = l + 2) :
    g.withoutEmpty.Generates [.nonterminal v] w ↔
      ∃ k ≤ l, ∃ x y, [.nonterminal x, .nonterminal y] ∈ g.alternatives v ∧
        g.withoutEmpty.Generates [.nonterminal x] (w.take (k + 1)) ∧
        g.withoutEmpty.Generates [.nonterminal y] (w.drop (k + 1)) := by
  rw [generates_withoutEmpty_iff h]
  constructor
  · rintro (⟨a, rfl, -⟩ | ⟨x, y, u, u', rfl, hr, hu, hu'⟩)
    · rw [List.length_singleton] at hw
      omega
    · have hpos := List.length_pos_iff.2 (ne_nil_of_isNormal h hu)
      have hpos' := List.length_pos_iff.2 (ne_nil_of_isNormal h hu')
      rw [List.length_append] at hw
      have hcut : u.length - 1 + 1 = u.length := by omega
      refine ⟨u.length - 1, by omega, x, y, hr, ?_, ?_⟩
      · rwa [hcut, List.take_left]
      · rwa [hcut, List.drop_left]
  · rintro ⟨k, -, x, y, hr, hu, hu'⟩
    exact .inr ⟨x, y, _, _, (List.take_append_drop _ _).symm, hr, hu, hu'⟩

/-! ## Spans -/

/-- The span of a letter holds the variables that have it as an alternative. -/
@[simp] lemma mem_letterSpan {v a : Name} :
    v ∈ g.letterSpan a ↔ [.terminal a] ∈ g.alternatives v := by
  simp only [letterSpan, SortedSet.mem_ofList, List.mem_map, List.mem_filter, mem_rules,
    decide_eq_true_eq]
  constructor
  · rintro ⟨⟨left, right⟩, ⟨hr, rfl⟩, rfl⟩
    exact hr
  · exact fun hr => ⟨⟨v, _⟩, ⟨hr, rfl⟩, rfl⟩

/-- The variables that have a pair from two sets as an alternative, with its first variable from
the first set and its second one from the second. -/
@[simp] lemma mem_pairSpan {first second : SortedSet Name} {v : Name} :
    v ∈ g.pairSpan first second ↔
      ∃ x ∈ first, ∃ y ∈ second, [.nonterminal x, .nonterminal y] ∈ g.alternatives v := by
  simp only [pairSpan, List.mem_map, List.mem_filter, mem_rules]
  constructor
  · rintro ⟨⟨left, right⟩, ⟨hr, hpair⟩, rfl⟩
    split at hpair
    · next x y heq =>
      obtain rfl : right = [.nonterminal x, .nonterminal y] := heq
      rw [Bool.and_eq_true, decide_eq_true_eq, decide_eq_true_eq] at hpair
      exact ⟨x, hpair.1, y, hpair.2, hr⟩
    · cases hpair
  · rintro ⟨x, hx, y, hy, hr⟩
    exact ⟨⟨v, _⟩, ⟨hr, by simp [hx, hy]⟩, rfl⟩

/-- **One cut.** The variables with a pair for the two parts of the span of length `l + 2` at
position `i` that is cut after `k + 1` letters. If the table lacks one of the parts, there is
none. -/
def cutSpan (g : Grammar) (t : SpanTable) (l i k : Nat) : List Name :=
  match t.span? k i, t.span? (l - k) (i + k + 1) with
  | some first, some second => g.pairSpan first second
  | _, _ => []

/-- A longer span holds the variables of its cuts, and no others. -/
lemma mem_longSpan {t : SpanTable} {l i : Nat} {v : Name} :
    v ∈ g.longSpan t l i ↔ ∃ k < l + 1, v ∈ g.cutSpan t l i k := by
  simp only [longSpan, SortedSet.mem_ofList, List.mem_flatMap, List.mem_range]
  rfl

end Grammar

/-! ## The table -/

namespace SpanTable

variable {g : Grammar} {word : List Name} {t : SpanTable} {n : Nat}

/-- **Correct tables**, up to spans of length `n + 1`: a span of the word holds the variables that
generate it without empty alternatives. Rows are counted from zero, so row `l` has the spans of `l
+ 1` letters. -/
structure Exact (g : Grammar) (word : List Name) (t : SpanTable) (n : Nat) : Prop where
  /-- There are rows for these spans. -/
  size : t.rows.size = n + 1
  /-- Every span of the word is right. -/
  span : ∀ l ≤ n, ∀ i, i + l < word.length → ∃ s, t.span? l i = some s ∧
    ∀ v, v ∈ s ↔ g.withoutEmpty.Generates [.nonterminal v] ((word.drop i).take (l + 1))

/-- A new row does not change the rows before, so spans can be read as before. -/
lemma span?_push_of_lt {row : Array (SortedSet Name)} {l i : Nat} (hl : l < t.rows.size) :
    span? ⟨t.rows.push row⟩ l i = t.span? l i := by
  rw [span?, span?, Array.getElem?_push_lt hl, Array.getElem?_eq_getElem hl]

/-- A new row comes last, and its spans are read from it. -/
lemma span?_push_eq {row : Array (SortedSet Name)} {l i : Nat} (hl : l = t.rows.size) :
    span? ⟨t.rows.push row⟩ l i = row[i]? := by
  rw [span?, hl, Array.getElem?_push_size]
  rfl

/-- **A longer span is right** if all shorter ones are.

**Proof sketch.** By `generates_pair_iff` the span is generated by a pair, cut somewhere inside,
and the parts of each cut are spans of the word themselves: the first begins where the span does,
the second behind the cut. Both are shorter, so the table is right about them. -/
lemma Exact.mem_longSpan (h : Exact g word t n) (hnormal : g.isNormal = true) {i : Nat}
    (hi : i + (n + 1) < word.length) {v : Name} :
    v ∈ g.longSpan t n i ↔
      g.withoutEmpty.Generates [.nonterminal v] ((word.drop i).take (n + 2)) := by
  have hlen : ((word.drop i).take (n + 2)).length = n + 2 := by
    rw [List.length_take, List.length_drop]
    omega
  rw [Grammar.generates_pair_iff hnormal hlen, Grammar.mem_longSpan]
  refine exists_congr fun k => ?_
  rw [Nat.lt_succ_iff]
  refine and_congr_right fun hk => ?_
  -- the two parts have `k + 1` and `n - k + 1` letters, so they are within the table
  obtain ⟨first, hfirst, hmem⟩ := h.span k hk i (by omega)
  obtain ⟨second, hsecond, hmem'⟩ := h.span (n - k) (Nat.sub_le n k) (i + k + 1) (by omega)
  have htake : ((word.drop i).take (n + 2)).take (k + 1) = (word.drop i).take (k + 1) := by
    rw [List.take_take, Nat.min_eq_left (by omega)]
  have hdrop : ((word.drop i).take (n + 2)).drop (k + 1) =
      (word.drop (i + k + 1)).take (n - k + 1) := by
    rw [List.drop_take, List.drop_drop, Nat.add_assoc]
    congr 1
    omega
  simp only [Grammar.cutSpan, hfirst, hsecond, Grammar.mem_pairSpan, hmem, hmem', htake, hdrop]
  constructor
  · rintro ⟨x, hx, y, hy, hr⟩
    exact ⟨x, y, hr, hx, hy⟩
  · rintro ⟨x, y, hr, hx, hy⟩
    exact ⟨x, hx, y, hy, hr⟩

end SpanTable

namespace Grammar

variable {g : Grammar}

/-! ## The table of a word -/

section Spans

variable {word : List Name} {l m i : Nat}

/-- There are as many rows as there are lengths of spans. -/
lemma size_rows_spanTable (g : Grammar) (word : List Name) (m : Nat) :
    (g.spanTable word m).rows.size = m + 1 := by
  induction m with
  | zero => rfl
  | succ m ih => rw [spanTable, Array.size_push, ih]

/-- Further rows do not change the spans that are there already. -/
lemma span?_spanTable_of_le (hl : l ≤ m) :
    (g.spanTable word m).span? l i = (g.spanTable word l).span? l i := by
  induction m with
  | zero =>
    obtain rfl : l = 0 := Nat.le_zero.1 hl
    rfl
  | succ m ih =>
    rcases Nat.lt_or_eq_of_le hl with hlt | rfl
    · rw [← ih (Nat.le_of_lt_succ hlt), spanTable, SpanTable.span?_push_of_lt]
      rwa [size_rows_spanTable]
    · rfl

/-- The first row has the letters of the word, and nothing beyond its end. -/
lemma span?_spanTable_zero : (g.spanTable word 0).span? 0 i = word[i]?.map g.letterSpan := by
  simp [spanTable, SpanTable.span?]

/-- The last row has longer spans, from the rows before, at all places where such a span fits. -/
lemma span?_spanTable_succ (hi : i + (l + 1) < word.length) :
    (g.spanTable word (l + 1)).span? (l + 1) i = some (g.longSpan (g.spanTable word l) l i) := by
  have hlt : i < word.length - (l + 1) := by omega
  rw [spanTable, SpanTable.span?_push_eq (size_rows_spanTable g word l).symm]
  simp [hlt]

/-- The table has all spans of the word, so reading one of them does not fail. -/
lemma exists_span?_spanTable (g : Grammar) (hi : i + l < word.length) :
    ∃ s, (g.spanTable word l).span? l i = some s := by
  cases l with
  | zero =>
    have hlt : i < word.length := hi
    exact ⟨g.letterSpan word[i], by simp [span?_spanTable_zero, hlt]⟩
  | succ l => exact ⟨_, span?_spanTable_succ hi⟩

end Spans

/-- **The table of a word is correct.**

**Proof sketch.** Induction on the length of the spans. The first row has the spans of the letters.
A new row has the next longer spans, which are right because the rows before it are. -/
theorem exact_spanTable (hnormal : g.isNormal = true) (word : List Name) (n : Nat) :
    SpanTable.Exact g word (g.spanTable word n) n := by
  refine ⟨size_rows_spanTable g word n, ?_⟩
  induction n with
  | zero =>
    intro l hl i hi
    obtain rfl : l = 0 := by omega
    have hlt : i < word.length := by omega
    refine ⟨g.letterSpan word[i], by simp [span?_spanTable_zero, hlt], fun v => ?_⟩
    rw [mem_letterSpan, ← generates_letter_iff hnormal, List.drop_eq_getElem_cons hlt]
    rfl
  | succ n ih =>
    intro l hl i hi
    rcases Nat.lt_or_eq_of_le hl with hlt | rfl
    · have hle : l ≤ n := Nat.le_of_lt_succ hlt
      rw [span?_spanTable_of_le hl, ← span?_spanTable_of_le hle]
      exact ih l hle i hi
    · have hexact : SpanTable.Exact g word (g.spanTable word n) n :=
        ⟨size_rows_spanTable g word n, ih⟩
      exact ⟨_, span?_spanTable_succ hi, fun v => hexact.mem_longSpan hnormal hi⟩

/-! ## Recognition -/

/-- **Recognition by a table.** For a grammar in Chomsky normal form there is an answer; it says
whether a word is generated without empty alternatives, or whether there is an empty alternative
for the empty word. A word that is generated only with the help of empty alternatives is not
accepted. -/
theorem exists_cykAccepts (hnormal : g.isNormal = true) (word : List Name) :
    ∃ answer, g.cykAccepts word = some answer ∧
      (answer = true ↔ word = [] ∧ [] ∈ g.alternatives g.start ∨
        word ≠ [] ∧ g.withoutEmpty.Generates [.nonterminal g.start] word) := by
  rcases hword : word with _ | ⟨a, rest⟩
  · refine ⟨decide ([] ∈ g.alternatives g.start), by simp [cykAccepts, hnormal], ?_⟩
    simp
  · obtain ⟨s, hs, hmem⟩ := (exact_spanTable hnormal word rest.length).span rest.length
      (Nat.le_refl _) 0 (by simp [hword])
    subst hword
    refine ⟨decide (g.start ∈ s), by simp [cykAccepts, hnormal, hs], ?_⟩
    rw [decide_eq_true_eq, hmem]
    simp

/-- **Recognition by a table is exact** for purged grammars in Chomsky normal form, where empty
alternatives can be dispensed with, except for the empty word. -/
theorem Purged.cykAccepts_spec (h : g.Purged) (hg : g.WellFormed) (hnormal : g.isNormal = true)
    (word : List Name) :
    ∃ answer, g.cykAccepts word = some answer ∧
      (answer = true ↔ g.Generates [.nonterminal g.start] word) := by
  obtain ⟨answer, hanswer, hiff⟩ := exists_cykAccepts hnormal word
  refine ⟨answer, hanswer, hiff.trans ?_⟩
  by_cases hword : word = []
  · subst hword
    simp [h.generates_nil_iff hg]
  · simp [hword, h.generates_iff_withoutEmpty hword]

end Grammar

end ChomskyForm
