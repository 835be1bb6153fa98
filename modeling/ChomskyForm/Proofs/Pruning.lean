import ChomskyForm.Proofs.EmptyAlternatives
import ChomskyForm.Stage.Pruning

set_option autoImplicit false
set_option relaxedAutoImplicit false

/-!
# Useless variables can be left out

A restriction loses no word of a variable that it keeps when it keeps all variables that occur in
generations from there. Both the reachable and the productive variables are a set of this kind.

## Main definitions

* `ChomskyForm.Grammar.Retains`: sets that hold all variables that occur in generations.

## Main results

* `ChomskyForm.Grammar.retains_reachable`, `ChomskyForm.Grammar.retains_productive`: the sets that
  the two stages keep are such sets.
* `ChomskyForm.Grammar.Retains.generates_iff`: in a restriction to such a set, what is left
  generates the same words as before.
* `ChomskyForm.Grammar.Purged.restrict`: it keeps a grammar purged.
* `ChomskyForm.Grammar.mem_alternatives_pruneUnreachable`,
  `ChomskyForm.Grammar.mem_alternatives_pruneUnproductive`: the alternatives that the two stages
  keep.
* `ChomskyForm.Grammar.reachable_pruneUnreachable`,
  `ChomskyForm.Grammar.productive_pruneUnproductive`: what is left over is of use.
-/

namespace ChomskyForm

namespace Grammar

variable {g : Grammar} {keep : SortedSet Name}

/-- **Sets that hold all variables that occur in generations** from their members or from the start
symbol. Alternatives that generate nothing do not matter, so that the productive variables are such
a set. -/
structure Retains (g : Grammar) (keep : SortedSet Name) : Prop where
  /-- The start symbol is a member, if it generates any word. -/
  start : ∀ w, g.Generates [.nonterminal g.start] w → g.start ∈ keep
  /-- Of an alternative of a member that generates any word, all variables are members. -/
  step : ∀ v ∈ keep, ∀ right ∈ g.alternatives v, ∀ w, g.Generates right w →
    ∀ u, .nonterminal u ∈ right → u ∈ keep

/-- A restriction keeps the entries of the kept variables. An entry may lose all its alternatives,
and is there nevertheless. -/
lemma mem_keys_restrict {v : Name} :
    v ∈ (g.restrict keep).productions.keys ↔ v ∈ g.productions.keys ∧ v ∈ keep := by
  simp only [SortedMap.mem_keys_iff_isSome, Grammar.restrict, SortedMap.get?_mapValues,
    SortedMap.get?_filterKeys, Option.isSome_map]
  by_cases hv : v ∈ keep <;> simp [hv]

/-! ## The two sets -/

/-- The reachable variables hold all that occur in generations, since they hold all that occur in
any alternative of a member. -/
lemma retains_reachable (g : Grammar) : g.Retains g.reachable where
  start _ _ := mem_reachable.2 .refl
  step _ hv right hr _ _ _ hu := mem_reachable.2 ((mem_reachable.1 hv).tail ⟨right, hr, hu⟩)

/-- The productive variables hold all that occur in generations, since what occurs in an
alternative that generates a word generates a word itself. -/
lemma retains_productive (g : Grammar) : g.Retains g.productive where
  start w hw := mem_productive.2 ⟨w, hw⟩
  step _ _ _ _ w hw := exists_generates_iff.1 ⟨w, hw⟩

/-! ## The generated words -/

/-- A restriction adds no words, since it adds no alternatives. -/
lemma generates_of_restrict {form : List Symbol} {w : List Name}
    (h : (g.restrict keep).Generates form w) : g.Generates form w :=
  h.mono fun _ _ hr => (mem_alternatives_restrict.1 hr).1

/-- **A sequence of kept variables** generates what it generated before. By induction on the
generation: the alternative that it uses for a kept variable generates a word, so it has only kept
variables and stays. -/
lemma Retains.generates_restrict (hkeep : g.Retains keep) {form : List Symbol} {w : List Name}
    (h : g.Generates form w) (hform : ∀ v, .nonterminal v ∈ form → v ∈ keep) :
    (g.restrict keep).Generates form w := by
  induction h with
  | nil => exact .nil
  | terminal a _ ih => exact .terminal a (ih fun v hv => hform v (List.mem_cons_of_mem _ hv))
  | epsilon _ ih => exact .epsilon (ih fun v hv => hform v (List.mem_cons_of_mem _ hv))
  | @nonterminal v right rest u w hr hu _ ihu ihw =>
    have hv : v ∈ keep := hform v List.mem_cons_self
    have hright := hkeep.step v hv right hr u hu
    exact .nonterminal (mem_alternatives_restrict.2 ⟨hr, hv, hright⟩) (ihu hright)
      (ihw fun x hx => hform x (List.mem_cons_of_mem _ hx))

/-- A set that holds all variables of generations holds all those of generations without empty
alternatives. -/
lemma Retains.withoutEmpty (hkeep : g.Retains keep) : g.withoutEmpty.Retains keep where
  start w hw := hkeep.start w hw.of_withoutEmpty
  step v hv right hr w hw :=
    hkeep.step v hv right (mem_alternatives_withoutEmpty.1 hr).1 w hw.of_withoutEmpty

/-- What a restriction generates without empty alternatives does not depend on the order in which
variables and empty alternatives are removed. -/
lemma generates_withoutEmpty_restrict {form : List Symbol} {w : List Name}
    (h : (g.withoutEmpty.restrict keep).Generates form w) :
    (g.restrict keep).withoutEmpty.Generates form w := by
  refine h.mono fun v right hr => ?_
  obtain ⟨hr, hv, hright⟩ := mem_alternatives_restrict.1 hr
  obtain ⟨hr, hne⟩ := mem_alternatives_withoutEmpty.1 hr
  exact mem_alternatives_withoutEmpty.2 ⟨mem_alternatives_restrict.2 ⟨hr, hv, hright⟩, hne⟩

/-- **A variable that stays** generates the same words as before, and so does the start symbol,
even if it is kept without being a member. In that case it generates nothing, before and after. -/
theorem Retains.generates_iff (hkeep : g.Retains keep) {v : Name} (hv : v ∈ keep ∨ v = g.start)
    {w : List Name} :
    (g.restrict keep).Generates [.nonterminal v] w ↔ g.Generates [.nonterminal v] w := by
  refine ⟨generates_of_restrict, fun h => hkeep.generates_restrict h fun u hu => ?_⟩
  obtain rfl : u = v := by simpa using hu
  rcases hv with hv | rfl
  · exact hv
  · exact hkeep.start w h

/-- **The start symbol** generates the same words as before, whether it is a member or not. -/
theorem Retains.generates_start (hkeep : g.Retains keep) {w : List Name} :
    (g.restrict keep).Generates [.nonterminal g.start] w ↔
      g.Generates [.nonterminal g.start] w :=
  hkeep.generates_iff (.inr rfl)

/-- **A purged grammar stays purged** when it is restricted to a set that holds all variables of
generations: the words of the start symbol are the same, with and without the empty alternatives. -/
theorem Purged.restrict (h : g.Purged) (hkeep : g.Retains keep) : (g.restrict keep).Purged :=
  h.of_stage rfl (fun v hv => h.eq_start v (mem_alternatives_restrict.1 hv).1)
    (fun _ hgen => generates_of_restrict hgen)
    (fun _ hgen => generates_withoutEmpty_restrict (hkeep.withoutEmpty.generates_start.2 hgen))

/-- A restriction keeps a grammar well formed, whichever variables are kept: an alternative with a
variable that is not kept goes as well. -/
lemma wellFormed_restrict (hg : g.WellFormed) (keep : SortedSet Name) :
    (g.restrict keep).WellFormed where
  start_mem := mem_nonterminals_restrict.2 ⟨hg.start_mem, .inr rfl⟩
  disjoint v hv := hg.disjoint v (mem_nonterminals_restrict.1 hv).1
  unreserved_nonterminals h := hg.unreserved_nonterminals (mem_nonterminals_restrict.1 h).1
  unreserved_terminals := hg.unreserved_terminals
  left_mem := by
    intro v hv
    obtain ⟨hkey, hv⟩ := mem_keys_restrict.1 hv
    exact mem_nonterminals_restrict.2 ⟨hg.left_mem v hkey, .inl hv⟩
  declares := by
    intro v right hr s hs
    obtain ⟨hr, -, hright⟩ := mem_alternatives_restrict.1 hr
    have hdeclared := hg.declares v right hr s hs
    cases s with
    | terminal a => exact hdeclared
    | nonterminal u => exact mem_nonterminals_restrict.2 ⟨hdeclared, .inl (hright u hs)⟩
    | epsilon => exact hdeclared

/-- **A restriction to a set that holds all variables** changes nothing, not even an entry without
alternatives. -/
lemma restrict_eq_self (hg : g.WellFormed) {keep : SortedSet Name}
    (hkeep : ∀ v ∈ g.nonterminals, v ∈ keep) : g.restrict keep = g := by
  refine ext_of_mem (fun v => ?_) rfl rfl (fun v => ?_) fun v right => ?_
  · rw [mem_nonterminals_restrict]
    exact and_iff_left_of_imp fun hv => .inl (hkeep v hv)
  · rw [mem_keys_restrict]
    exact and_iff_left_of_imp fun hv => hkeep v (hg.left_mem v hv)
  · rw [mem_alternatives_restrict]
    refine and_iff_left_of_imp fun hr => ⟨?_, fun u hu => hkeep u (hg.declares v right hr _ hu)⟩
    exact hkeep v (hg.mem_nonterminals hr)

/-- **Two restrictions are one**, to what their sets have in common. So they may be exchanged.

**Proof sketch.** Two grammars are equal if their variables, their left-hand sides and their
alternatives are. For each of these, to be kept twice is to be in both sets; the start symbol is
kept by either restriction. -/
lemma restrict_restrict_filter (g : Grammar) (keep keep' : SortedSet Name) :
    (g.restrict keep).restrict keep' = g.restrict (keep.filter (· ∈ keep')) := by
  have hstart : (g.restrict keep).start = g.start := rfl
  refine ext_of_mem (fun v => ?_) rfl rfl (fun v => ?_) fun v right => ?_
  · simp only [mem_nonterminals_restrict, SortedSet.mem_filter, decide_eq_true_eq, hstart,
      and_assoc, ← and_or_right]
  · simp only [mem_keys_restrict, SortedSet.mem_filter, decide_eq_true_eq, and_assoc]
  · simp only [mem_alternatives_restrict, SortedSet.mem_filter, decide_eq_true_eq]
    constructor
    · rintro ⟨⟨hr, hv, hright⟩, hv', hright'⟩
      exact ⟨hr, ⟨hv, hv'⟩, fun u hu => ⟨hright u hu, hright' u hu⟩⟩
    · rintro ⟨hr, ⟨hv, hv'⟩, hright⟩
      exact ⟨⟨hr, hv, fun u hu => (hright u hu).1⟩, hv', fun u hu => (hright u hu).2⟩

/-- What is reachable in a restriction was reachable before, along the same alternatives. -/
lemma reachable_of_restrict {v : Name} (hv : v ∈ (g.restrict keep).reachable) : v ∈ g.reachable :=
  reachable_mono (g := g.restrict keep) (h := g) rfl
    (fun _ _ _ hr => (mem_alternatives_restrict.1 hr).1) hv

/-! ## What the two stages keep -/

/-- The removal of unreachable variables keeps the alternatives of reachable ones, with nothing to
be said about what occurs in them: it is reachable too. -/
lemma mem_alternatives_pruneUnreachable {v : Name} {right : List Symbol} :
    right ∈ g.pruneUnreachable.alternatives v ↔ right ∈ g.alternatives v ∧ v ∈ g.reachable := by
  refine mem_alternatives_restrict.trans (and_congr_right fun hr => ?_)
  exact and_iff_left_of_imp fun hv u hu =>
    mem_reachable.2 ((mem_reachable.1 hv).tail ⟨right, hr, hu⟩)

/-- The removal of unproductive variables keeps the alternatives that generate a word. Their
left-hand sides are productive then. -/
lemma mem_alternatives_pruneUnproductive {v : Name} {right : List Symbol} :
    right ∈ g.pruneUnproductive.alternatives v ↔
      right ∈ g.alternatives v ∧ ∃ w, g.Generates right w := by
  rw [exists_generates_iff]
  refine mem_alternatives_restrict.trans
    (and_congr_right fun hr => and_iff_right_of_imp fun h => ?_)
  obtain ⟨w, hw⟩ := exists_generates_iff.2 h
  exact mem_productive.2 ⟨w, generates_nonterminal.2 ⟨right, hr, hw⟩⟩

/-- The removal of unreachable variables leaves exactly the reachable ones, and the start symbol is
one of them. -/
lemma nonterminals_pruneUnreachable (hg : g.WellFormed) :
    g.pruneUnreachable.nonterminals = g.reachable := by
  refine SortedSet.ext fun v => mem_nonterminals_restrict.trans ⟨fun ⟨_, hor⟩ => ?_, fun hv => ?_⟩
  · rcases hor with hv | rfl
    · exact hv
    · exact mem_reachable.2 .refl
  · exact ⟨mem_nonterminals_of_reachable hg hv, .inl hv⟩

/-- The removal of unproductive variables leaves exactly the productive ones and the start symbol,
which stays declared in any case. -/
lemma nonterminals_pruneUnproductive (hg : g.WellFormed) :
    g.pruneUnproductive.nonterminals = g.productive.insert g.start := by
  refine SortedSet.ext fun v => mem_nonterminals_restrict.trans ?_
  rw [SortedSet.mem_insert, or_comm]
  refine and_iff_right_of_imp fun hor => ?_
  rcases hor with rfl | hv
  · exact hg.start_mem
  · exact mem_nonterminals_of_productive hg hv

/-! ## Useful variables -/

/-- **All variables are reachable** once those that are not have been removed: the way from the
start symbol to a variable leads through reachable variables only, and these keep their
alternatives. -/
theorem reachable_pruneUnreachable {v : Name} (hv : v ∈ g.pruneUnreachable.nonterminals) :
    v ∈ g.pruneUnreachable.reachable := by
  have hreachable : v ∈ g.reachable := by
    rcases (mem_nonterminals_restrict.1 hv).2 with hv | rfl
    · exact hv
    · exact mem_reachable.2 .refl
  exact reachable_mono (g := g) (h := g.pruneUnreachable) rfl
    (fun _ hx _ hr => mem_alternatives_pruneUnreachable.2 ⟨hr, hx⟩) hreachable

/-- A productive variable stays productive when those that are not are removed, since it generates
the same words. -/
lemma productive_pruneUnproductive_of_productive {v : Name} (hv : v ∈ g.productive) :
    v ∈ g.pruneUnproductive.productive := by
  obtain ⟨w, hw⟩ := mem_productive.1 hv
  exact mem_productive.2 ⟨w, ((retains_productive g).generates_iff (.inl hv)).2 hw⟩

/-- **All variables are productive** once those that are not have been removed, if the start symbol
is. -/
theorem productive_pruneUnproductive (hstart : g.start ∈ g.productive) {v : Name}
    (hv : v ∈ g.pruneUnproductive.nonterminals) : v ∈ g.pruneUnproductive.productive := by
  refine productive_pruneUnproductive_of_productive ?_
  rcases (mem_nonterminals_restrict.1 hv).2 with hv | rfl
  · exact hv
  · exact hstart

/-- Without unproductive variables, a start symbol that has no words leads to no other variable:
with an alternative it would be productive. -/
lemma start_mem_productive_of_reachable {v : Name} (hv : v ∈ g.pruneUnproductive.reachable)
    (hne : v ≠ g.start) : g.start ∈ g.productive := by
  rcases (mem_reachable.1 hv).cases_head with heq | ⟨u, ⟨right, hr, -⟩, -⟩
  · exact absurd heq.symm hne
  · exact (mem_alternatives_restrict.1 hr).2.1

/-- After the removal of unreachable variables those are productive that were so and are left. A
variable that is not reachable has no alternatives any more. -/
lemma mem_productive_pruneUnreachable {v : Name} :
    v ∈ g.pruneUnreachable.productive ↔ v ∈ g.reachable ∧ v ∈ g.productive := by
  constructor
  · intro hv
    obtain ⟨w, hw⟩ := mem_productive.1 hv
    obtain ⟨right, hr⟩ := exists_alternative_of_productive hv
    exact ⟨(mem_alternatives_pruneUnreachable.1 hr).2,
      mem_productive.2 ⟨w, generates_of_restrict hw⟩⟩
  · rintro ⟨hreachable, hv⟩
    obtain ⟨w, hw⟩ := mem_productive.1 hv
    exact mem_productive.2 ⟨w, ((retains_reachable g).generates_iff (.inl hreachable)).2 hw⟩

/-- A productive variable stays productive when variables that are not reachable are removed. -/
lemma productive_pruneUnreachable {v : Name} (hv : v ∈ g.pruneUnreachable.nonterminals)
    (hproductive : v ∈ g.productive) : v ∈ g.pruneUnreachable.productive := by
  refine mem_productive_pruneUnreachable.2 ⟨?_, hproductive⟩
  rcases (mem_nonterminals_restrict.1 hv).2 with hv | rfl
  · exact hv
  · exact mem_reachable.2 .refl

end Grammar

end ChomskyForm
