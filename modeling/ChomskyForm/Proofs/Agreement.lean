import ChomskyForm.Proofs.Recognition
import ChomskyForm.Proofs.SpanTable

set_option autoImplicit false
set_option relaxedAutoImplicit false

/-!
# Where the two recognizers agree

Earley recognition is exact for every grammar. Recognition by a table disregards empty alternatives
in words that are not empty, so for a grammar in Chomsky normal form it is exact for the words that
are derived without them. The two differ where the empty alternative of the start symbol is used
inside a longer derivation, which takes a start symbol that occurs in some alternative.

## Main definitions

* `ChomskyForm.Grammar.Detached`: grammars whose start symbol has no empty alternative or occurs in
  no alternative.
* `ChomskyForm.Grammar.repeated`: a grammar in Chomsky normal form that is not one of these.

## Main results

* `ChomskyForm.Grammar.purged_of_detached`: in Chomsky normal form, these grammars are purged.
* `ChomskyForm.Grammar.Attainable.recognizers_agree_iff`: when the recognizers agree.
* `ChomskyForm.Grammar.recognizers_disagree_repeated`: a word on which they do not.
-/

namespace ChomskyForm

namespace Grammar

variable {g : Grammar}

/-! ## Detached start symbols -/

/-- **Grammars with a detached start symbol.** It has no empty alternative, or it occurs in no
alternative. In either case the empty word is of no use inside a longer derivation. -/
def Detached (g : Grammar) : Prop :=
  [] ∉ g.alternatives g.start ∨ ∀ v, ∀ right ∈ g.alternatives v, .nonterminal g.start ∉ right

/-- In Chomsky normal form only the start symbol has an empty alternative: no other form of an
alternative is empty. -/
lemma eq_start_of_isNormal (hnormal : g.isNormal = true) {v : Name} (hv : [] ∈ g.alternatives v) :
    v = g.start := by
  cases normalShape_of_isNormal hnormal hv with
  | empty h => exact h

/-- In Chomsky normal form the empty word is generated by an empty alternative, if at all. -/
lemma generates_nil_iff_of_isNormal (hg : g.WellFormed) (hnormal : g.isNormal = true) :
    g.Generates [.nonterminal g.start] [] ↔ [] ∈ g.alternatives g.start :=
  ⟨fun hgen => nil_mem_of_generates hg (fun _ => eq_start_of_isNormal hnormal) hgen rfl (by simp)
    (by simp), fun hnil => generates_nonterminal.2 ⟨[], hnil, .nil⟩⟩

/-- **Empty alternatives are of no use** below a sequence that is free of the start symbol, if no
alternative leads back to it.

**Proof sketch.** Induction on generation. A variable at the front is not the start symbol, so the
alternative that is used for it is not empty; and as no alternative holds the start symbol, the
induction hypothesis applies to this alternative too. -/
lemma generates_withoutEmpty_of_notMem (hnormal : g.isNormal = true)
    (hunused : ∀ v, ∀ right ∈ g.alternatives v, .nonterminal g.start ∉ right) {form : List Symbol}
    {w : List Name} (hgen : g.Generates form w) (hform : .nonterminal g.start ∉ form) :
    g.withoutEmpty.Generates form w := by
  induction hgen with
  | nil => exact .nil
  | terminal a _ ih => exact .terminal a (ih fun hm => hform (List.mem_cons_of_mem _ hm))
  | epsilon _ ih => exact .epsilon (ih fun hm => hform (List.mem_cons_of_mem _ hm))
  | @nonterminal v right rest u w hr _ _ ihu ihw =>
    have hne : right ≠ [] := by
      rintro rfl
      rw [eq_start_of_isNormal hnormal hr] at hform
      exact hform List.mem_cons_self
    exact .nonterminal (mem_alternatives_withoutEmpty.2 ⟨hr, hne⟩) (ihu (hunused v right hr))
      (ihw fun hm => hform (List.mem_cons_of_mem _ hm))

/-- **A detached grammar in Chomsky normal form is purged.**

**Proof sketch.** If the start symbol has no empty alternative, there is none at all. Otherwise a
word that is not empty needs an alternative of the start symbol that is not empty, and the start
symbol does not come back below it. -/
theorem purged_of_detached (hnormal : g.isNormal = true) (h : g.Detached) : g.Purged where
  eq_start _ := eq_start_of_isNormal hnormal
  dispensable w hw hgen := by
    rcases h with hnil | hunused
    · refine hgen.mono fun v right hr => mem_alternatives_withoutEmpty.2 ⟨hr, ?_⟩
      rintro rfl
      rw [eq_start_of_isNormal hnormal hr] at hr
      exact hnil hr
    · obtain ⟨right, hr, hgen⟩ := generates_nonterminal.1 hgen
      have hne : right ≠ [] := by
        rintro rfl
        exact hw (generates_nil.1 hgen)
      exact generates_nonterminal.2 ⟨right, mem_alternatives_withoutEmpty.2 ⟨hr, hne⟩,
        generates_withoutEmpty_of_notMem hnormal hunused hgen (hunused _ right hr)⟩

/-! ## Agreement -/

/-- **Without its empty alternatives a grammar stays well formed**: the declarations are the same,
and there are only fewer alternatives. -/
lemma wellFormed_withoutEmpty (hg : g.WellFormed) : g.withoutEmpty.WellFormed where
  start_mem := hg.start_mem
  disjoint := hg.disjoint
  unreserved_nonterminals := hg.unreserved_nonterminals
  unreserved_terminals := hg.unreserved_terminals
  left_mem v hv := hg.left_mem v (by simpa [withoutEmpty] using hv)
  declares v right hr := hg.declares v right (mem_alternatives_withoutEmpty.1 hr).1

/-- **The answers are the same** for a word exactly when it is empty, or not generated, or
generated without empty alternatives.

**Proof sketch.** In Chomsky normal form the table gives an answer, which for a word that is not
empty tells whether it is generated without empty alternatives (`exists_cykAccepts`), and
recognition by a chart decides generation. What is generated without empty alternatives is
generated, so the answers differ only where the converse fails. -/
lemma cykAccepts_eq_derives_iff (hg : g.WellFormed) (hnormal : g.isNormal = true)
    (word : List Name) :
    g.cykAccepts word = some (g.derives word) ↔
      (word ≠ [] → g.Generates [.nonterminal g.start] word →
        g.withoutEmpty.Generates [.nonterminal g.start] word) := by
  obtain ⟨answer, hanswer, hiff⟩ := exists_cykAccepts hnormal word
  rw [hanswer, Option.some.injEq, Bool.eq_iff_iff, hiff, derives_eq_true]
  by_cases hword : word = []
  · subst hword
    simp [generates_nil_iff_of_isNormal hg hnormal]
  · simp only [hword, false_and, false_or, ne_eq, not_false_eq_true, true_and, forall_const]
    exact ⟨Iff.mpr, fun h => ⟨Generates.of_withoutEmpty, h⟩⟩

/-- **When the recognizers agree.** For an attainable grammar in Chomsky normal form they give the
same answer for a word exactly when the word is empty, or is not derived, or is derived without
empty alternatives. They agree on all words if the start symbol has no empty alternative or occurs
in no alternative.

**Proof sketch.** The first part is `cykAccepts_eq_derives_iff` with derivations in place of
generation, in the grammar and in the one without empty alternatives, which is well formed as well.
The second follows, since a detached grammar is purged and so derives every word that is not empty
without them. -/
theorem Attainable.recognizers_agree_iff (h : g.Attainable) (hnormal : g.isNormal = true) :
    (∀ word, g.cykAccepts word = some (g.derives word) ↔
      (word ≠ [] → g.Derives [.nonterminal g.start] (word.map .terminal) →
        g.withoutEmpty.Derives [.nonterminal g.start] (word.map .terminal))) ∧
    (g.Detached → ∀ word, g.cykAccepts word = some (g.derives word)) := by
  have hg := h.wellFormed
  constructor
  · intro word
    rw [cykAccepts_eq_derives_iff hg hnormal, hg.generates_iff_derives,
      (wellFormed_withoutEmpty hg).generates_iff_derives]
  · intro hdetached word
    exact (cykAccepts_eq_derives_iff hg hnormal word).2
      ((purged_of_detached hnormal hdetached).dispensable word)

/-! ## A word on which they differ -/

/-- **Repeated letters**: the description with the alternatives `S → A S`, `S → ε` and `A → a`. -/
def repeated : Description where
  nonterminals := SortedSet.ofList ["S", "A"]
  terminals := SortedSet.singleton "a"
  start := "S"
  productions := SortedMap.ofList
    [("S", SortedSet.ofList [["A", "S"], ["ε"]]), ("A", SortedSet.singleton ["a"])]

/-- The grammar of repeated letters is attainable. -/
lemma attainable_repeated : repeated.toGrammar.Attainable :=
  attainable_of_ofDescription (show ofDescription repeated = .ok repeated.toGrammar from rfl)

/-- The grammar of repeated letters is in Chomsky normal form. -/
lemma isNormal_repeated : repeated.toGrammar.isNormal = true := by decide

/-- When the recognizers agree, for the grammar of repeated letters. -/
theorem recognizers_agree_iff_repeated :
    repeated.toGrammar.Attainable ∧ repeated.toGrammar.isNormal = true ∧
      (repeated.toGrammar.cykAccepts ["a"] = some (repeated.toGrammar.derives ["a"]) ↔
        (["a"] ≠ [] → repeated.toGrammar.Derives [.nonterminal "S"] [.terminal "a"] →
          repeated.toGrammar.withoutEmpty.Derives [.nonterminal "S"] [.terminal "a"])) :=
  ⟨attainable_repeated, isNormal_repeated,
    (Attainable.recognizers_agree_iff attainable_repeated isNormal_repeated).1 ["a"]⟩

/-- **The recognizers differ** on a single letter: the start symbol derives it by way of its empty
alternative, and the table does not find it. -/
theorem recognizers_disagree_repeated :
    repeated.toGrammar.Attainable ∧ repeated.toGrammar.isNormal = true ∧
      repeated.toGrammar.derives ["a"] = true ∧
      repeated.toGrammar.cykAccepts ["a"] = some false := by
  refine ⟨attainable_repeated, isNormal_repeated, (derives_eq_true _ _).2 ?_, by decide⟩
  have hpair : [.nonterminal "A", .nonterminal "S"] ∈ repeated.toGrammar.alternatives "S" := by
    decide
  have hletter : [.terminal "a"] ∈ repeated.toGrammar.alternatives "A" := by decide
  have hempty : [] ∈ repeated.toGrammar.alternatives "S" := by decide
  exact generates_nonterminal.2 ⟨_, hpair, .nonterminal hletter (generates_terminals ["a"])
    (generates_nonterminal.2 ⟨[], hempty, .nil⟩)⟩

end Grammar

end ChomskyForm
