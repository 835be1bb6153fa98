import ChomskyForm.Analysis.Generation
import ChomskyForm.Analysis.Reachability
import ChomskyForm.Proofs.Counting
import ChomskyForm.Proofs.Generation
import ChomskyForm.Proofs.Search

set_option autoImplicit false
set_option relaxedAutoImplicit false

/-!
# What the analyses find

The nullable variables are those that generate the empty word, the productive ones those that
generate some word, and the reachable ones those that the start symbol leads to through
alternatives. Unit pairs are the reflexive and transitive closure of the unit alternatives.

## Main definitions

* `ChomskyForm.Grammar.Uses`: the relation of a variable to those in its alternatives.
* `ChomskyForm.Grammar.UnitStep`: the relation of a variable to those that are an alternative.

## Main results

* `ChomskyForm.Grammar.mem_nullable`, `ChomskyForm.Grammar.mem_productive`,
  `ChomskyForm.Grammar.mem_reachable`, `ChomskyForm.Grammar.mem_unitPairs`: what each analysis
  finds.
-/

namespace ChomskyForm

namespace Grammar

open Relation

variable {g : Grammar}

/-! ## Nullable and productive variables -/

/-- **The clauses of a grammar** are its alternatives, less those with a terminal unless terminals
are admitted.

**Proof sketch.** The clauses come from a list of rules, which are the alternatives of their
left-hand sides (`mem_rules`). That a right-hand side has no terminal is asked symbol by symbol,
kind by kind. -/
lemma mem_clauses {terminals : Bool} {c : Clause} :
    c ∈ g.clauses terminals ↔ ∃ right ∈ g.alternatives c.head,
      (terminals = true ∨ ∀ a, .terminal a ∉ right) ∧ c.body = Symbol.variablesOf right := by
  have hterminal : ∀ right : List Symbol,
      (right.any Symbol.isTerminal = false) ↔ ∀ a, .terminal a ∉ right := by
    intro right
    rw [List.any_eq_false]
    constructor
    · intro hall a ha
      exact hall _ ha rfl
    · rintro hno (a | a | _) hs
      · exact absurd hs (hno a)
      · simp [Symbol.isTerminal]
      · simp [Symbol.isTerminal]
  obtain ⟨head, body⟩ := c
  simp only [clauses, List.mem_map, List.mem_filter, Bool.or_eq_true, Bool.not_eq_true', hterminal,
    Rule.toClause, Clause.mk.injEq]
  constructor
  · rintro ⟨⟨left, right⟩, ⟨hr, hterminals⟩, rfl, rfl⟩
    exact ⟨right, mem_rules.1 hr, hterminals, rfl⟩
  · rintro ⟨right, hr, hterminals, rfl⟩
    exact ⟨⟨head, right⟩, ⟨mem_rules.2 hr, hterminals⟩, rfl, rfl⟩

/-- **If each variable of a sequence generates a word, so does the sequence.** Where terminals are
not admitted all these words are empty.

**Proof sketch.** Induction on the sequence. A terminal adds its letter, and there is one only
where terminals are admitted; a variable adds the word that it generates, and the mark for the
empty word adds nothing. -/
lemma exists_generates {terminals : Bool} {form : List Symbol}
    (hterminals : terminals = true ∨ ∀ a, .terminal a ∉ form)
    (h : ∀ v, .nonterminal v ∈ form →
      ∃ w, (terminals = true ∨ w = []) ∧ g.Generates [.nonterminal v] w) :
    ∃ w, (terminals = true ∨ w = []) ∧ g.Generates form w := by
  induction form with
  | nil => exact ⟨[], .inr rfl, .nil⟩
  | cons s form ih =>
    obtain ⟨w, hw, hgen⟩ := ih
      (hterminals.imp_right fun hno a ha => hno a (List.mem_cons_of_mem _ ha))
      fun v hv => h v (List.mem_cons_of_mem _ hv)
    cases s with
    | terminal a =>
      have hterminals := hterminals.resolve_right fun hno => hno a List.mem_cons_self
      exact ⟨a :: w, .inl hterminals, .terminal a hgen⟩
    | epsilon => exact ⟨w, hw, .epsilon hgen⟩
    | nonterminal v =>
      obtain ⟨u, hu, hgenu⟩ := h v List.mem_cons_self
      refine ⟨u ++ w, ?_, generates_cons.2 ⟨u, w, rfl, hgenu, hgen⟩⟩
      rcases hu with hu | rfl
      · exact .inl hu
      · simpa using hw

/-- **The variables of a sequence that generates a word are entailed.** Where terminals are not
admitted the word has to be empty, and there is no terminal in the sequence.

**Proof sketch.** Induction on generation. A variable at the front is the head of the clause of the
alternative that is used for it, and the names of that clause are entailed by the induction
hypothesis; all other variables belong to the rest. -/
lemma entails_of_generates {terminals : Bool} {form : List Symbol} {w : List Name}
    (h : g.Generates form w) (hw : terminals = true ∨ w = []) :
    (terminals = true ∨ ∀ a, .terminal a ∉ form) ∧
      ∀ v, .nonterminal v ∈ form → Entails (g.clauses terminals) v := by
  induction h with
  | nil => simp
  | @terminal rest w a _ ih =>
    have hterminals := hw.resolve_right (List.cons_ne_nil a w)
    obtain ⟨-, hvar⟩ := ih (.inl hterminals)
    refine ⟨.inl hterminals, fun v hv => hvar v ?_⟩
    simpa using hv
  | @epsilon rest w _ ih =>
    obtain ⟨hterm, hvar⟩ := ih hw
    exact ⟨by simpa using hterm, fun v hv => hvar v (by simpa using hv)⟩
  | @nonterminal v right rest u w hr _ _ ihu ihw =>
    rw [List.append_eq_nil_iff] at hw
    obtain ⟨hterm, hvar⟩ := ihu (hw.imp_right And.left)
    obtain ⟨hterm', hvar'⟩ := ihw (hw.imp_right And.right)
    refine ⟨by simpa using hterm', fun x hx => ?_⟩
    rcases List.mem_cons.1 hx with hx | hx
    · cases hx
      refine .head (c := ⟨v, Symbol.variablesOf right⟩) (mem_clauses.2 ⟨right, hr, hterm, rfl⟩) ?_
      exact fun y hy => hvar y (Symbol.mem_variablesOf.1 hy)
    · exact hvar' x hx

/-- **What the clauses entail** are the variables that generate a word, which is to be empty where
terminals are not admitted. Both analyses are instances of this.

**Proof sketch.** In one direction by induction on the entailment: all names of the body generate
words, so the alternative does (`exists_generates`). In the other it is `entails_of_generates` for
a sequence of one variable. -/
lemma entails_clauses {terminals : Bool} {v : Name} :
    Entails (g.clauses terminals) v ↔
      ∃ w, (terminals = true ∨ w = []) ∧ g.Generates [.nonterminal v] w := by
  constructor
  · intro h
    induction h with
    | head hc _ ih =>
      obtain ⟨right, hr, hterminals, hbody⟩ := mem_clauses.1 hc
      obtain ⟨w, hw, hgen⟩ := exists_generates hterminals fun v hv =>
        ih v (hbody ▸ Symbol.mem_variablesOf.2 hv)
      exact ⟨w, hw, generates_nonterminal.2 ⟨right, hr, hgen⟩⟩
  · rintro ⟨w, hw, hgen⟩
    exact (entails_of_generates hgen hw).2 v List.mem_cons_self

/-- **Nullable variables** are those that generate the empty word. -/
theorem mem_nullable {v : Name} : v ∈ g.nullable ↔ g.Generates [.nonterminal v] [] := by
  rw [nullable, mem_saturate, entails_clauses]
  simp

/-- **Productive variables** are those that generate some word of terminals, the empty word
included. -/
theorem mem_productive {v : Name} : v ∈ g.productive ↔ ∃ w, g.Generates [.nonterminal v] w := by
  rw [productive, mem_saturate, entails_clauses]
  simp

/-- **A sequence generates some word** exactly when all its variables are productive. Terminals are
no obstacle, whether or not they are declared. -/
lemma exists_generates_iff {form : List Symbol} :
    (∃ w, g.Generates form w) ↔ ∀ v, .nonterminal v ∈ form → v ∈ g.productive := by
  constructor
  · rintro ⟨w, hw⟩ v hv
    obtain ⟨u, -, hu⟩ := exists_infix_generates hw hv
    exact mem_productive.2 ⟨u, hu⟩
  · intro h
    have hwords : ∀ v, .nonterminal v ∈ form →
        ∃ w, (true = true ∨ w = []) ∧ g.Generates [.nonterminal v] w := by
      intro v hv
      obtain ⟨w, hw⟩ := mem_productive.1 (h v hv)
      exact ⟨w, .inl rfl, hw⟩
    obtain ⟨w, -, hw⟩ := exists_generates (.inl rfl) hwords
    exact ⟨w, hw⟩

/-- A productive variable has an alternative. -/
lemma exists_alternative_of_productive {v : Name} (hv : v ∈ g.productive) :
    ∃ right, right ∈ g.alternatives v := by
  obtain ⟨w, hw⟩ := mem_productive.1 hv
  obtain ⟨right, hr, -⟩ := generates_nonterminal.1 hw
  exact ⟨right, hr⟩

/-- Everything that is productive in a well-formed grammar is a variable, because it has an
alternative. -/
lemma mem_nonterminals_of_productive (hg : g.WellFormed) {v : Name} (hv : v ∈ g.productive) :
    v ∈ g.nonterminals := by
  obtain ⟨right, hr⟩ := exists_alternative_of_productive hv
  exact hg.mem_nonterminals hr

/-! ## Reachable variables -/

/-- **Use.** A variable uses those that occur in its alternatives. Whether these alternatives ever
lead to a word is not asked. -/
def Uses (g : Grammar) (v u : Name) : Prop := ∃ right ∈ g.alternatives v, .nonterminal u ∈ right

/-- The edges from a left-hand side lead to the variables that it uses. -/
lemma mem_next_dependencies {v u : Name} : u ∈ g.dependencies.next v ↔ g.Uses v u := by
  simp only [Digraph.next, dependencies, SortedMap.get?_mapValues, Uses, mem_alternatives]
  cases g.productions.get? v with
  | none => simp [← SortedSet.mem_def]
  | some rights => simp [← SortedSet.mem_def]

/-- **Reachable variables** are those that the start symbol uses, directly or through others; it is
one of them itself. -/
theorem mem_reachable {v : Name} : v ∈ g.reachable ↔ ReflTransGen g.Uses g.start v := by
  rw [reachable, Digraph.mem_reachableFrom]
  simp only [mem_next_dependencies]

/-- **Reachable variables that keep their alternatives stay reachable**, together with these.
Nothing is assumed about the other variables.

**Proof sketch.** Induction on the path of uses from the start symbol: all variables on it are
reachable, so the alternatives that it uses are still there. -/
lemma reachable_mono {h : Grammar} (hstart : h.start = g.start)
    (hgh : ∀ v ∈ g.reachable, ∀ right ∈ g.alternatives v, right ∈ h.alternatives v) {v : Name}
    (hv : v ∈ g.reachable) : v ∈ h.reachable := by
  have hpath := mem_reachable.1 hv
  clear hv
  rw [mem_reachable, hstart]
  induction hpath with
  | refl => exact .refl
  | @tail x y hpath step ih =>
    obtain ⟨right, hr, hy⟩ := step
    exact ih.tail ⟨right, hgh x (mem_reachable.2 hpath) right hr, hy⟩

/-- Everything that is reachable in a well-formed grammar is a variable: the start symbol is one,
and so is every symbol of an alternative that is a nonterminal. -/
lemma mem_nonterminals_of_reachable (hg : g.WellFormed) {v : Name} (hv : v ∈ g.reachable) :
    v ∈ g.nonterminals := by
  have hpath := mem_reachable.1 hv
  clear hv
  induction hpath with
  | refl => exact hg.start_mem
  | tail _ step _ =>
    obtain ⟨right, hr, hu⟩ := step
    exact hg.declares _ right hr _ hu

/-- **Where the variables of a form come from.** What occurs in a form that is derived is used by
what occurs in the form it is derived from.

**Proof sketch.** Induction on the derivation, from its beginning. After the first step a variable
is one that was there before, or one of the alternative, and then the replaced variable uses it. -/
lemma Derives.exists_uses {form form' : List Symbol} (h : g.Derives form form') {u : Name}
    (hu : .nonterminal u ∈ form') : ∃ v, .nonterminal v ∈ form ∧ ReflTransGen g.Uses v u := by
  induction h with
  | refl => exact ⟨u, hu, .refl⟩
  | head step _ ih =>
    obtain ⟨x, hx, hpath⟩ := ih hu
    cases step with
    | @replace v right before after hr =>
      simp only [List.append_assoc, List.mem_append] at hx
      rcases hx with hx | hx | hx
      · exact ⟨x, List.mem_append_left _ hx, hpath⟩
      · exact ⟨v, by simp, hpath.head ⟨right, hr, hx⟩⟩
      · exact ⟨x, List.mem_append_right _ (List.mem_cons_of_mem _ hx), hpath⟩

/-- The variables of a form that is derived from the start symbol are reachable. -/
lemma Derives.mem_reachable {form : List Symbol} (h : g.Derives [.nonterminal g.start] form)
    {v : Name} (hv : .nonterminal v ∈ form) : v ∈ g.reachable := by
  obtain ⟨u, hu, hpath⟩ := h.exists_uses hv
  obtain rfl : u = g.start := by simpa using hu
  exact Grammar.mem_reachable.2 hpath

/-- **A reachable variable occurs in a form that is derived from the start symbol.**

**Proof sketch.** Induction on the path of uses. If a variable occurs in a form, it can be replaced
there by the alternative in which the next variable of the path occurs. -/
lemma exists_derives_of_reachable {v : Name} (hv : v ∈ g.reachable) :
    ∃ before after, g.Derives [.nonterminal g.start] (before ++ .nonterminal v :: after) := by
  have hpath := mem_reachable.1 hv
  clear hv
  induction hpath with
  | refl => exact ⟨[], [], .refl _⟩
  | tail _ step ih =>
    obtain ⟨before, after, hder⟩ := ih
    obtain ⟨right, hr, hu⟩ := step
    obtain ⟨x, y, rfl⟩ := List.append_of_mem hu
    have hstep := Step.replace before after hr
    rw [List.append_assoc, List.append_assoc] at hstep
    refine ⟨before ++ x, y ++ after, hder.trans ?_⟩
    rw [List.append_assoc]
    exact .head hstep (.refl _)

/-! ## Unit pairs -/

/-- **Unit steps** lead from a variable to those that make up one of its alternatives on their
own. -/
def UnitStep (g : Grammar) (v u : Name) : Prop := [.nonterminal u] ∈ g.alternatives v

/-- The unit edges from a left-hand side are its unit steps. -/
lemma mem_next_unitEdges {v u : Name} : u ∈ g.unitEdges.next v ↔ g.UnitStep v u := by
  simp only [Digraph.next, unitEdges, SortedMap.get?_mapValues, UnitStep, mem_alternatives]
  cases g.productions.get? v with
  | none => simp [← SortedSet.mem_def]
  | some rights => simp [← SortedSet.mem_def]

/-- **Unit pairs.** Each variable has an entry, with the variables that unit steps lead to; nothing
else has one. -/
theorem mem_unitPairs {v : Name} {reached : SortedSet Name} :
    g.unitPairs.get? v = some reached ↔
      v ∈ g.nonterminals ∧ reached = g.unitEdges.reachableFrom v := by
  unfold unitPairs
  rw [SortedMap.get?_ofKeys]
  by_cases hv : v ∈ g.nonterminals <;> simp [hv, eq_comm]

/-- The variables paired with `v` are those that unit steps lead to from it, itself included by no
step at all. -/
lemma mem_reachableFrom_unitEdges {v u : Name} :
    u ∈ g.unitEdges.reachableFrom v ↔ ReflTransGen g.UnitStep v u := by
  rw [Digraph.mem_reachableFrom]
  simp only [mem_next_unitEdges]

end Grammar

end ChomskyForm
