import Mathlib.Data.List.Permutation
import ChomskyForm.Proofs.StageOrder

set_option autoImplicit false
set_option relaxedAutoImplicit false

/-!
# The useful part of a grammar

A rule is of use if it is applied in a derivation of a word from the start symbol, and a variable
if it occurs in one. The removal of unproductive variables, followed by that of unreachable ones,
leaves exactly what is of use, and the start symbol in any case. To remove unreachable variables
before that as well, as normalization does, makes no difference. Each removal on its own keeps the
words of every variable that it leaves.

## Main definitions

* `ChomskyForm.Grammar.Occurs`: the variables that occur in derivations of words.
* `ChomskyForm.Grammar.Applies`: the rules that are applied in derivations of words.
* `ChomskyForm.Grammar.severed`: the description of a small grammar with useless variables.

## Main results

* `ChomskyForm.Grammar.Attainable.prune_exact`: which variables a single removal leaves, and that it
  keeps their words.
* `ChomskyForm.Grammar.mem_nonterminals_useful`, `ChomskyForm.Grammar.mem_alternatives_useful`:
  which variables and which alternatives both removals leave.
* `ChomskyForm.Grammar.pruneUnreachable_twice`: a removal of unreachable variables in advance makes
  no difference.
* `ChomskyForm.Grammar.Attainable.useful_exact`: what both removals lead to.
-/

namespace ChomskyForm

namespace Grammar

variable {g : Grammar} {v : Name} {right : List Symbol}

/-! ## Single removals -/

/-- **Severed variables**: the description with the alternatives `S → A B`, `S → a`, `A → a`, `B →
B b` and `C → S`. There is no word for `B`, without which nothing leads to `A`, and nothing leads
to `C`. -/
def severed : Description where
  nonterminals := SortedSet.ofList ["S", "A", "B", "C"]
  terminals := SortedSet.ofList ["a", "b"]
  start := "S"
  productions := SortedMap.ofList
    [("S", SortedSet.ofList [["A", "B"], ["a"]]), ("A", SortedSet.singleton ["a"]),
      ("B", SortedSet.singleton ["B", "b"]), ("C", SortedSet.singleton ["S"])]

/-- The grammar of severed variables is attainable, as its description is accepted. -/
lemma attainable_severed : severed.toGrammar.Attainable :=
  attainable_of_ofDescription (d := severed) rfl

/-- **Each removal keeps the words of every variable that it leaves.** In an attainable grammar the
removal of unreachable variables leaves the reachable ones, and that of unproductive variables the
productive ones and the start symbol. Every variable that is left derives the same words as before,
and the start symbol is always left.

**Proof sketch.** Both sets hold all variables that occur in generations (`Retains`), so a
restriction to them keeps what its variables generate. For well-formed grammars this is what they
derive. -/
theorem Attainable.prune_exact (h : g.Attainable) :
    (∀ v ∈ g.pruneUnreachable.nonterminals, ∀ w : List Name,
      g.pruneUnreachable.Derives [.nonterminal v] (w.map .terminal) ↔
        g.Derives [.nonterminal v] (w.map .terminal)) ∧
    (∀ v ∈ g.pruneUnproductive.nonterminals, ∀ w : List Name,
      g.pruneUnproductive.Derives [.nonterminal v] (w.map .terminal) ↔
        g.Derives [.nonterminal v] (w.map .terminal)) ∧
    g.pruneUnreachable.nonterminals = g.reachable ∧
    g.pruneUnproductive.nonterminals = g.productive.insert g.start ∧
    g.pruneUnreachable.start ∈ g.pruneUnreachable.nonterminals ∧
    g.pruneUnproductive.start ∈ g.pruneUnproductive.nonterminals := by
  have hg := h.wellFormed
  have hreachable := wellFormed_restrict hg g.reachable
  have hproductive := wellFormed_restrict hg g.productive
  refine ⟨fun v hv w => hreachable.derives_congr hg ?_,
    fun v hv w => hproductive.derives_congr hg ?_,
    nonterminals_pruneUnreachable hg, nonterminals_pruneUnproductive hg, hreachable.start_mem,
    hproductive.start_mem⟩
  · exact (retains_reachable g).generates_iff (mem_nonterminals_restrict.1 hv).2
  · exact (retains_productive g).generates_iff (mem_nonterminals_restrict.1 hv).2

/-- Both removals in the grammar of severed variables: neither of them alone takes `A` away. -/
theorem prune_exact_severed :
    severed.toGrammar.Attainable ∧
      ("A" ∈ severed.toGrammar.pruneUnreachable.nonterminals ∧
        severed.toGrammar.pruneUnreachable.Derives [.nonterminal "A"] [.terminal "a"]) ∧
      ("A" ∈ severed.toGrammar.pruneUnproductive.nonterminals ∧
        severed.toGrammar.pruneUnproductive.Derives [.nonterminal "A"] [.terminal "a"]) := by
  have hexact := Attainable.prune_exact attainable_severed
  have hreachable : "A" ∈ severed.toGrammar.pruneUnreachable.nonterminals :=
    of_decide_eq_true (by cbv)
  have hproductive : "A" ∈ severed.toGrammar.pruneUnproductive.nonterminals :=
    of_decide_eq_true (by cbv)
  have hrule : [.terminal "a"] ∈ severed.toGrammar.alternatives "A" := by decide
  have hder : severed.toGrammar.Derives [.nonterminal "A"] [.terminal "a"] :=
    .head (.replace [] [] hrule) (.refl _)
  exact ⟨attainable_severed, ⟨hreachable, (hexact.1 "A" hreachable ["a"]).2 hder⟩,
    hproductive, (hexact.2.1 "A" hproductive ["a"]).2 hder⟩

/-! ## Derivations of words -/

/-- **Variables that are of use** occur in a derivation of a word from the start symbol: the start
symbol derives a form in which the variable stands, and from this form a word can be derived. -/
def Occurs (g : Grammar) (v : Name) : Prop :=
  ∃ (before after : List Symbol) (w : List Name),
    g.Derives [.nonterminal g.start] (before ++ .nonterminal v :: after) ∧
      g.Derives (before ++ .nonterminal v :: after) (w.map .terminal)

/-- **Rules that are of use** are applied in a derivation of a word from the start symbol: the
left-hand side stands in a form derived from the start symbol, and after the replacement a word can
still be derived. -/
def Applies (g : Grammar) (r : Rule) : Prop :=
  r.right ∈ g.alternatives r.left ∧ ∃ (before after : List Symbol) (w : List Name),
    g.Derives [.nonterminal g.start] (before ++ .nonterminal r.left :: after) ∧
      g.Derives (before ++ r.right ++ after) (w.map .terminal)

/-- The left-hand side of a rule that is applied occurs in the same derivation. -/
lemma Applies.occurs {r : Rule} (h : g.Applies r) : g.Occurs r.left := by
  obtain ⟨hr, before, after, w, hder, hword⟩ := h
  exact ⟨before, after, w, hder, .head (.replace before after hr) hword⟩

/-- What is replaced on the way to a word generates a part of it, whatever stands before and behind
it. -/
lemma exists_generates_of_append {before form after : List Symbol} {w : List Name}
    (h : g.Generates (before ++ form ++ after) w) : ∃ u, g.Generates form u := by
  obtain ⟨x, -, -, hx, -⟩ := generates_append.1 h
  obtain ⟨-, u, -, -, hu⟩ := generates_append.1 hx
  exact ⟨u, hu⟩

/-- **The way to a word** does without unproductive variables. By induction on the way: what each
step puts in still generates a part of the word, so the alternative is kept. -/
lemma Derives.pruneUnproductive {form form' : List Symbol} {w : List Name}
    (h : g.Derives form form') (hw : g.Generates form' w) :
    g.pruneUnproductive.Derives form form' := by
  induction h with
  | refl => exact .refl _
  | head step rest ih =>
    cases step with
    | replace before after hr =>
      have hright := exists_generates_of_append (rest.generates hw)
      have hkept := mem_alternatives_pruneUnproductive.2 ⟨hr, hright⟩
      exact .head (.replace before after hkept) (ih hw)

/-- Without unproductive variables there is no way from productive variables to others, as the
alternatives that are left hold productive variables only. -/
lemma productive_of_derives {form form' : List Symbol} (h : g.pruneUnproductive.Derives form form')
    (hform : ∀ u, .nonterminal u ∈ form → u ∈ g.productive) :
    ∀ u, .nonterminal u ∈ form' → u ∈ g.productive := by
  induction h with
  | refl => exact hform
  | head step _ ih =>
    refine ih fun u hu => ?_
    cases step with
    | replace before after hr =>
      rw [List.append_assoc, List.mem_append, List.mem_append] at hu
      rcases hu with hu | hu | hu
      · exact hform u (List.mem_append_left _ hu)
      · exact (mem_alternatives_restrict.1 hr).2.2 u hu
      · exact hform u (List.mem_append_right _ (List.mem_cons_of_mem _ hu))

/-- **Every way leads to a word** without unproductive variables, if the start symbol is
productive.

**Proof sketch.** The way exists in the grammar itself as well. All variables at its end are
productive, so the form generates a word, and what is generated can be derived, since all symbols
are declared. -/
lemma WellFormed.exists_derives_word (hg : g.WellFormed) (hstart : g.start ∈ g.productive)
    {form : List Symbol} (h : g.pruneUnproductive.Derives [.nonterminal g.start] form) :
    g.Derives [.nonterminal g.start] form ∧ ∃ w : List Name, g.Derives form (w.map .terminal) := by
  have hder : g.Derives [.nonterminal g.start] form :=
    h.mono fun _ _ hr => (mem_alternatives_restrict.1 hr).1
  have hdeclared := hg.declares_of_derives hder fun s hs => by
    rw [List.mem_singleton.1 hs]
    exact hg.start_mem
  have hproductive := productive_of_derives h fun u hu => by
    obtain rfl : u = g.start := by simpa using hu
    exact hstart
  obtain ⟨w, hw⟩ := exists_generates_iff.2 hproductive
  exact ⟨hder, w, hw.derives (fun _ _ => hg.epsilon_notMem) (hdeclared .epsilon)⟩

/-! ## Both removals -/

/-- What occurs on the way to a word is reachable without unproductive variables, since the way
does without them. -/
lemma Occurs.mem_reachable (h : g.Occurs v) : v ∈ g.pruneUnproductive.reachable := by
  obtain ⟨before, after, w, hder, hword⟩ := h
  have hgen := hword.generates (generates_terminals w)
  exact (hder.pruneUnproductive hgen).mem_reachable (by simp)

/-- **The variables that both removals leave** are those that are of use, and the start symbol. A
variable that is left is reachable by a way without unproductive variables, and every such way
leads to a word. -/
theorem mem_nonterminals_useful (hg : g.WellFormed) (hne : v ≠ g.start) :
    v ∈ g.pruneUnproductive.pruneUnreachable.nonterminals ↔ g.Occurs v := by
  rw [nonterminals_pruneUnreachable (g := g.pruneUnproductive) (wellFormed_restrict hg _)]
  refine ⟨fun hv => ?_, Occurs.mem_reachable⟩
  have hstart := start_mem_productive_of_reachable hv hne
  obtain ⟨before, after, hder⟩ := exists_derives_of_reachable hv
  obtain ⟨hder, w, hw⟩ := hg.exists_derives_word hstart hder
  exact ⟨before, after, w, hder, hw⟩

/-- **The alternatives that both removals leave** are the rules that are of use.

**Proof sketch.** The left-hand side of an alternative that is left is reached by a way without
unproductive variables. The alternative continues this way by a step, and then it leads to a word.
Conversely, what is put in by a rule that is of use generates a part of a word, so its variables
are productive. -/
theorem mem_alternatives_useful (hg : g.WellFormed) :
    right ∈ g.pruneUnproductive.pruneUnreachable.alternatives v ↔ g.Applies ⟨v, right⟩ := by
  rw [mem_alternatives_pruneUnreachable]
  constructor
  · rintro ⟨hr, hv⟩
    obtain ⟨hrule, hleft, -⟩ := mem_alternatives_restrict.1 hr
    have hstart : g.start ∈ g.productive := by
      by_cases hne : v = g.start
      · exact hne ▸ hleft
      · exact start_mem_productive_of_reachable hv hne
    obtain ⟨before, after, hder⟩ := exists_derives_of_reachable hv
    have hnext := hder.trans (.head (.replace before after hr) (.refl _))
    obtain ⟨-, w, hw⟩ := hg.exists_derives_word hstart hnext
    exact ⟨hrule, before, after, w, (hg.exists_derives_word hstart hder).1, hw⟩
  · intro h
    refine ⟨?_, h.occurs.mem_reachable⟩
    obtain ⟨hr, before, after, w, -, hword⟩ := h
    have hright := exists_generates_of_append (hword.generates (generates_terminals w))
    exact mem_alternatives_pruneUnproductive.2 ⟨hr, hright⟩

/-! ## Unreachable variables in advance -/

/-- When unreachable variables have been removed before unproductive ones, their alternatives are
missing, and no others. -/
lemma mem_alternatives_pruneUnreachable_pruneUnproductive :
    right ∈ g.pruneUnreachable.pruneUnproductive.alternatives v ↔
      right ∈ g.pruneUnproductive.alternatives v ∧ v ∈ g.reachable := by
  rw [mem_alternatives_pruneUnproductive, mem_alternatives_pruneUnproductive,
    mem_alternatives_pruneUnreachable, and_right_comm]
  refine and_congr_left fun hv => and_congr_right fun hr => exists_congr fun w => ?_
  refine ⟨generates_of_restrict, fun hw => (retains_reachable g).generates_restrict hw ?_⟩
  exact (retains_reachable g).step v hv right hr w hw

/-- So they have no effect on what is reachable afterwards: along the way only alternatives of
reachable variables are used. -/
lemma mem_reachable_pruneUnreachable_pruneUnproductive :
    v ∈ g.pruneUnreachable.pruneUnproductive.reachable ↔ v ∈ g.pruneUnproductive.reachable := by
  constructor
  · refine reachable_mono (g := g.pruneUnreachable.pruneUnproductive) (h := g.pruneUnproductive)
      rfl ?_
    exact fun _ _ _ hr => (mem_alternatives_pruneUnreachable_pruneUnproductive.1 hr).1
  · refine reachable_mono (g := g.pruneUnproductive) (h := g.pruneUnreachable.pruneUnproductive)
      rfl ?_
    intro x hx right hr
    exact mem_alternatives_pruneUnreachable_pruneUnproductive.2 ⟨hr, reachable_of_restrict hx⟩

/-- **A removal of unreachable variables in advance makes no difference.**

**Proof sketch.** Each side is a restriction of a restriction, hence a restriction to what the sets
have in common. These are the reachable variables that are productive, and of them those that are
still reachable; all of the latter were reachable in the first place. -/
theorem pruneUnreachable_twice (g : Grammar) :
    g.pruneUnreachable.pruneUnproductive.pruneUnreachable =
      g.pruneUnproductive.pruneUnreachable := by
  have hkeep : (g.reachable.filter (· ∈ g.pruneUnreachable.productive)).filter
      (· ∈ g.pruneUnreachable.pruneUnproductive.reachable) =
        g.productive.filter (· ∈ g.pruneUnproductive.reachable) := by
    refine SortedSet.ext fun v => ?_
    have hreachable : v ∈ g.pruneUnproductive.reachable → v ∈ g.reachable := reachable_of_restrict
    simp only [SortedSet.mem_filter, decide_eq_true_eq, mem_productive_pruneUnreachable,
      mem_reachable_pruneUnreachable_pruneUnproductive]
    tauto
  have hfirst : g.pruneUnreachable.pruneUnproductive =
      g.restrict (g.reachable.filter (· ∈ g.pruneUnreachable.productive)) :=
    restrict_restrict_filter g _ _
  calc g.pruneUnreachable.pruneUnproductive.pruneUnreachable
    _ = (g.restrict (g.reachable.filter (· ∈ g.pruneUnreachable.productive))).restrict
          g.pruneUnreachable.pruneUnproductive.reachable := by
          rw [← hfirst]
          rfl
    _ = g.restrict (g.productive.filter (· ∈ g.pruneUnproductive.reachable)) := by
          rw [restrict_restrict_filter, hkeep]
    _ = g.pruneUnproductive.pruneUnreachable := (restrict_restrict_filter g _ _).symm

/-- **The useful part of a grammar.** In an attainable grammar the removal of unproductive
variables, followed by that of unreachable ones, leaves a variable other than the start symbol
exactly if it occurs in a derivation of a word from the start symbol, and an alternative exactly if
it is applied in one. With a removal of unreachable variables in advance the result is the same.
This is the order in which normalization removes variables. -/
theorem Attainable.useful_exact (h : g.Attainable) :
    (∀ v, v ≠ g.start →
      (v ∈ g.pruneUnproductive.pruneUnreachable.nonterminals ↔ g.Occurs v)) ∧
    (∀ v ∈ g.pruneUnproductive.pruneUnreachable.nonterminals, ∀ right,
      right ∈ g.pruneUnproductive.pruneUnreachable.alternatives v ↔ g.Applies ⟨v, right⟩) ∧
    g.pruneUnreachable.pruneUnproductive.pruneUnreachable =
      g.pruneUnproductive.pruneUnreachable :=
  ⟨fun _ hne => mem_nonterminals_useful h.wellFormed hne,
    fun _ _ _ => mem_alternatives_useful h.wellFormed, pruneUnreachable_twice g⟩

/-- The useful part of the grammar of severed variables: `A` is of no use, although it is reachable
and productive. -/
theorem useful_exact_severed :
    severed.toGrammar.Attainable ∧ "A" ≠ severed.toGrammar.start ∧
      ¬ severed.toGrammar.Occurs "A" ∧
      "S" ∈ severed.toGrammar.pruneUnproductive.pruneUnreachable.nonterminals ∧
      severed.toGrammar.Applies ⟨"S", [.terminal "a"]⟩ ∧
      ¬ severed.toGrammar.Applies ⟨"S", [.nonterminal "A", .nonterminal "B"]⟩ := by
  have hexact := Attainable.useful_exact attainable_severed
  have hleft : severed.toGrammar.pruneUnproductive.pruneUnreachable.nonterminals =
      SortedSet.singleton "S" := by cbv
  have hrights : severed.toGrammar.pruneUnproductive.pruneUnreachable.alternatives "S" =
      SortedSet.singleton [.terminal "a"] := by cbv
  have hne : "A" ≠ severed.toGrammar.start := by decide
  have hstart : "S" ∈ severed.toGrammar.pruneUnproductive.pruneUnreachable.nonterminals := by
    rw [hleft]
    decide
  refine ⟨attainable_severed, hne, fun hoccurs => ?_, hstart, ?_, fun happlies => ?_⟩
  · have hmem := (hexact.1 "A" hne).2 hoccurs
    rw [hleft] at hmem
    revert hmem
    decide
  · refine (hexact.2.1 "S" hstart _).1 ?_
    rw [hrights]
    decide
  · have hmem := (hexact.2.1 "S" hstart _).2 happlies
    rw [hrights] at hmem
    revert hmem
    decide

end Grammar

end ChomskyForm
