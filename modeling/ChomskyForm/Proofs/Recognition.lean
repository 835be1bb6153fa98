import ChomskyForm.Proofs.Chart
import ChomskyForm.Proofs.StageOrder

set_option autoImplicit false
set_option relaxedAutoImplicit false

/-!
# Earley recognition is exact

Every item that a generation calls for is in the chart: if a part of the right-hand side behind the
dot generates what comes next in the word, then the item moved on past this part is in the column
where that ends. A variable that generates the empty word needs no completion, since it is nullable
and may be passed over; any other completion begins in an earlier column, whose items are all known.

## Main results

* `ChomskyForm.Earley.mem_column_of_generates`: the items that a generation calls for.
* `ChomskyForm.Earley.accepts_iff`: a word is accepted exactly when it is generated.
* `ChomskyForm.Grammar.Attainable.derives_iff`: recognition decides derivability.
-/

namespace ChomskyForm

/-! ## Prefixes of the rest of a list -/

section Prefix

variable {α : Type} {l : List α} {n : Nat}

/-- What a list continues with, if it continues with an element and then some others. -/
lemma of_cons_prefix_drop {a : α} {u : List α} (h : a :: u <+: l.drop n) :
    l[n]? = some a ∧ u <+: l.drop (n + 1) := by
  obtain ⟨rest, hrest⟩ := h
  have hhead : l[n]? = some a := by
    rw [← List.head?_drop, ← hrest]
    rfl
  refine ⟨hhead, rest, ?_⟩
  rw [← List.tail_drop, ← hrest]
  rfl

/-- What a list continues with, if it continues with two lists, one after the other: with the first
of them here, and with the second one behind it. -/
lemma of_append_prefix_drop {u w : List α} (h : u ++ w <+: l.drop n) :
    u <+: l.drop n ∧ w <+: l.drop (n + u.length) := by
  obtain ⟨rest, hrest⟩ := h
  refine ⟨⟨w ++ rest, by rw [← hrest, List.append_assoc]⟩, rest, ?_⟩
  rw [← List.drop_drop, ← hrest, List.append_assoc, List.drop_left]

end Prefix

namespace Earley

variable {g : Grammar} {e : Earley}

/-! ## Completeness -/

/-- **The items that a generation calls for are in the chart.**

**Proof sketch.** Induction on generation. A terminal is read, a variable is predicted and its
right-hand side is matched by the induction hypothesis. If its word is empty, the variable is
nullable and has been passed over; otherwise it has been completed in a later column. -/
theorem mem_column_of_generates (hprep : e.Prepares g) {form : List Symbol} {u : List Name}
    (hgen : g.Generates form u) {k : Nat} {i : Item} (hi : i ∈ e.column k) {r : Rule}
    (hr : e.rule? i = some r) (hform : form <+: r.right.drop i.dot)
    (hword : u <+: e.word.toList.drop k) :
    ⟨i.rule, i.dot + form.length, i.origin⟩ ∈ e.column (k + u.length) := by
  induction hgen generalizing k i r with
  | nil => exact hi
  | @terminal rest w a _ ih =>
    obtain ⟨hsymbol, hform⟩ := of_cons_prefix_drop hform
    obtain ⟨hletter, hword⟩ := of_cons_prefix_drop hword
    rw [Array.getElem?_toList] at hletter
    have hnext := scanned_mem_column hprep hi (expected?_eq_some.2 ⟨r, hr, hsymbol⟩) hletter
    have hmem := ih hnext hr hform hword
    have hdot : i.dot + (rest.length + 1) = i.dot + 1 + rest.length := by omega
    have hpos : k + (w.length + 1) = k + 1 + w.length := by omega
    rw [List.length_cons, List.length_cons, hdot, hpos]
    exact hmem
  | @epsilon rest w _ ih =>
    obtain ⟨hsymbol, hform⟩ := of_cons_prefix_drop hform
    have hnext := added_mem_column hprep hi (.mark (expected?_eq_some.2 ⟨r, hr, hsymbol⟩))
    have hmem := ih hnext hr hform hword
    have hdot : i.dot + (rest.length + 1) = i.dot + 1 + rest.length := by omega
    rw [List.length_cons, hdot]
    exact hmem
  | @nonterminal v right rest u w hright hu _ ihu ihw =>
    obtain ⟨hsymbol, hform⟩ := of_cons_prefix_drop hform
    obtain ⟨hwordu, hwordw⟩ := of_append_prefix_drop hword
    have hexpected : e.expected? i = some (.nonterminal v) := expected?_eq_some.2 ⟨r, hr, hsymbol⟩
    have hnext : i.advance ∈ e.column (k + u.length) := by
      by_cases hempty : u = []
      · -- a completion in this column may have come before `i`, so it cannot be relied on
        subst hempty
        have hnull := (hprep.nullable v).2 (Grammar.generates_nonterminal.2 ⟨right, hright, hu⟩)
        exact added_mem_column hprep hi (.skip hexpected hnull)
      · obtain ⟨n, hn⟩ := List.mem_iff_getElem?.1 ((hprep.rules ⟨v, right⟩).2 hright)
        rw [Array.getElem?_toList] at hn
        have hpredicted := added_mem_column hprep hi (.predict hexpected hn)
        have hmatched := ihu hpredicted hn (List.prefix_refl _) hwordu
        have horigin : k < k + u.length := Nat.lt_add_of_pos_right (List.length_pos_iff.2 hempty)
        have hdone : right[0 + right.length]? = none := by rw [Nat.zero_add, List.getElem?_length]
        exact completed_mem_column hprep hmatched hn hdone horigin hi hexpected
    have hmem := ihw hnext hr hform hwordw
    have hdot : i.dot + (rest.length + 1) = i.dot + 1 + rest.length := by omega
    rw [List.length_cons, List.length_append, hdot, ← Nat.add_assoc]
    exact hmem

/-! ## Acceptance -/

/-- **Accepting items** are the complete matches of a rule of the start symbol that began at the
first position. -/
lemma isAccepting_iff {i : Item} :
    e.isAccepting i = true ↔ ∃ r, e.rule? i = some r ∧ i.origin = 0 ∧ i.dot = r.right.length ∧
      r.left = e.start := by
  unfold isAccepting
  cases e.rule? i with
  | none => simp
  | some r => simp [and_assoc]

/-- Acceptance looks for an accepting item in the last column of the chart. -/
lemma accepts_eq_true : e.accepts = true ↔ ∃ i ∈ e.column e.word.size, e.isAccepting i = true := by
  simp only [accepts, chart_eq, Array.back?_push, Column.mem_def]
  rw [← Array.any_toList, List.any_eq_true]

/-- **Earley recognition is exact**: a word is accepted exactly when it is generated.

**Proof sketch.** An accepting item is sound, so its rule generates the whole word. Conversely, a
rule of the start symbol that generates the word begins in the first column, and its generation
calls for an accepting item in the last one. -/
theorem accepts_iff (hprep : e.Prepares g) :
    e.accepts = true ↔ g.Generates [.nonterminal g.start] e.word.toList := by
  have hlen : e.word.toList.length = e.word.size := Array.length_toList
  rw [accepts_eq_true]
  constructor
  · rintro ⟨i, hi, haccepting⟩
    obtain ⟨r, hr, horigin, hdot, hleft⟩ := isAccepting_iff.1 haccepting
    have hgen := (sound_of_mem_column hprep hi).generates_left hprep hr (by simp [hdot])
    rwa [hleft, hprep.start, horigin, ← hlen, segment_length] at hgen
  · intro hgen
    obtain ⟨right, hright, hgen⟩ := Grammar.generates_nonterminal.1 hgen
    obtain ⟨n, hn⟩ := List.mem_iff_getElem?.1 ((hprep.rules ⟨g.start, right⟩).2 hright)
    rw [Array.getElem?_toList] at hn
    have hfirst := start_mem_column hprep hn hprep.start.symm
    have hlast := mem_column_of_generates hprep hgen hfirst hn (List.prefix_refl _)
      (List.prefix_refl _)
    rw [Nat.zero_add, Nat.zero_add, hlen] at hlast
    exact ⟨_, hlast, isAccepting_iff.2 ⟨_, hn, rfl, rfl, hprep.start.symm⟩⟩

end Earley

namespace Grammar

variable {g : Grammar}

/-- **Recognition decides generation**, for any grammar. Nothing has to be assumed about it: not
even that its alternatives are declared, or free of the mark for the empty word. -/
theorem derives_eq_true (g : Grammar) (word : List Name) :
    g.derives word = true ↔ g.Generates [.nonterminal g.start] word :=
  Earley.accepts_iff (Earley.prepares_ofGrammar g word)

/-- **Recognition decides derivability**: for attainable grammars and for every word, also for
words with letters that are no terminals. Such letters occur in no alternative, so no word with one
of them is derived or recognized. -/
theorem Attainable.derives_iff (h : g.Attainable) (word : List Name) :
    g.derives word = true ↔ g.Derives [.nonterminal g.start] (word.map .terminal) :=
  (derives_eq_true g word).trans h.wellFormed.generates_iff_derives

/-- A word of the grammar of nested pairs is recognized. -/
theorem derives_nested :
    nested.toGrammar.Attainable ∧ nested.toGrammar.derives ["a", "b"] = true := by
  refine ⟨attainable_nested, (Attainable.derives_iff attainable_nested ["a", "b"]).2 ?_⟩
  have hlong : [.terminal "a", .nonterminal "S", .terminal "b"] ∈
      nested.toGrammar.alternatives "S" := by decide
  have hempty : [] ∈ nested.toGrammar.alternatives "S" := by decide
  exact .head (.replace [] [] hlong) (.head (.replace [.terminal "a"] [.terminal "b"] hempty)
    (.refl _))

end Grammar

end ChomskyForm
