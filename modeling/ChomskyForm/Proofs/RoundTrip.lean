import Mathlib.Data.List.Monad
import Mathlib.Data.List.Permutation
import Mathlib.Data.String.Basic
import Mathlib.Order.Bounds.Defs
import ChomskyForm.Proofs.StageOrder

set_option autoImplicit false
set_option relaxedAutoImplicit false

/-!
# Descriptions of grammars are read back

The description of a well-formed grammar determines the grammar: a name that is declared as a
variable stood for one, and any other name but the reserved one stood for a terminal. Validation has
only one thing to object to, a variable without alternatives.

## Main definitions

* `ChomskyForm.Grammar.Complete`: grammars in which every variable has an alternative.

## Main results

* `ChomskyForm.Grammar.WellFormed.toGrammar_toDescription`: the described grammar.
* `ChomskyForm.Grammar.WellFormed.violation?_toDescription`: what validation finds.
* `ChomskyForm.Grammar.WellFormed.ofDescription_toDescription`: a complete grammar is read back.
* `ChomskyForm.Grammar.WellFormed.ofDescription_toDescription_of_not_complete`: for any other one,
  the least variable without alternatives is reported.
* `ChomskyForm.Grammar.Attainable.description_roundTrip`: both for attainable grammars.
-/

namespace ChomskyForm

namespace Grammar

variable {g : Grammar}

/-! ## Declared names -/

/-- A description declares the variables of its grammar. -/
@[simp] lemma nonterminals_toDescription (g : Grammar) :
    g.toDescription.nonterminals = g.nonterminals := rfl

/-- A description declares the terminals of its grammar. -/
@[simp] lemma terminals_toDescription (g : Grammar) : g.toDescription.terminals = g.terminals := rfl

/-- A description has an entry where its grammar has one, also if there is no alternative. -/
@[simp] lemma keys_toDescription (g : Grammar) :
    g.toDescription.productions.keys = g.productions.keys := by
  simp [toDescription]

/-- A declared name is not the reserved one, whether it is declared as a variable or as a
terminal. -/
lemma WellFormed.ne_epsilonName (hg : g.WellFormed) {name : Name}
    (h : name ∈ g.nonterminals ∨ name ∈ g.terminals) : name ≠ epsilonName := by
  rintro rfl
  exact h.elim hg.unreserved_nonterminals hg.unreserved_terminals

/-- **A declared symbol** is what its name stands for. Names of variables and of terminals do not
overlap, so that the kind of the symbol is known from its name. -/
lemma WellFormed.symbol?_name (hg : g.WellFormed) {s : Symbol} (hs : g.Declares s) :
    g.toDescription.symbol? s.name = some s := by
  cases s with
  | terminal a =>
    have hne : a ≠ epsilonName := hg.ne_epsilonName (.inr hs)
    have hvar : a ∉ g.nonterminals := fun hv => hg.disjoint a hv hs
    exact (if_neg hne).trans (if_neg hvar)
  | nonterminal v =>
    have hne : v ≠ epsilonName := hg.ne_epsilonName (.inl hs)
    exact (if_neg hne).trans (if_pos hs)
  | epsilon => exact absurd hs id

/-- **A right-hand side** is what its names stand for, also when it is empty. -/
lemma WellFormed.filterMap_spell (hg : g.WellFormed) {right : List Symbol}
    (hright : ∀ s ∈ right, g.Declares s) :
    (Symbol.spell right).filterMap g.toDescription.symbol? = right := by
  unfold Symbol.spell
  split
  · next hempty =>
    rw [List.isEmpty_iff.1 hempty]
    rfl
  · rw [List.filterMap_map]
    exact (List.filterMap_congr fun s hs => hg.symbol?_name (hright s hs)).trans
      List.filterMap_some

/-- Every name of a right-hand side may stand there: it is the name of a declared symbol, or the
reserved one if the right-hand side is empty. -/
lemma declares_of_mem_spell {right : List Symbol} (hright : ∀ s ∈ right, g.Declares s) {name : Name}
    (hname : name ∈ Symbol.spell right) : g.toDescription.declares name = true := by
  refine decide_eq_true ?_
  unfold Symbol.spell at hname
  split at hname
  · exact .inl (List.mem_singleton.1 hname)
  · obtain ⟨s, hs, rfl⟩ := List.mem_map.1 hname
    have hdeclared := hright s hs
    cases s with
    | terminal a => exact .inr (.inr hdeclared)
    | nonterminal v => exact .inr (.inl hdeclared)
    | epsilon => exact absurd hdeclared id

/-! ## The description -/

/-- The right-hand sides of a description are the alternatives, spelled. -/
lemma mem_rightsOf_toDescription {v : Name} {names : List Name} :
    names ∈ g.toDescription.rightsOf v ↔
      ∃ right ∈ g.alternatives v, Symbol.spell right = names := by
  simp only [Description.rightsOf, toDescription, SortedMap.get?_mapValues, mem_alternatives]
  cases g.productions.get? v <;> simp

/-- **The described grammar** is the one that the description was made of, entries without
alternatives included. Each alternative is spelled, and its spelling is read as this alternative. -/
theorem WellFormed.toGrammar_toDescription (hg : g.WellFormed) :
    g.toDescription.toGrammar = g := by
  refine ext_of_mem (fun _ => .rfl) rfl rfl (fun v => ?_) fun v right => ?_
  · simp [Description.toGrammar]
  · rw [mem_alternatives_toGrammar]
    constructor
    · rintro ⟨names, hnames, rfl⟩
      obtain ⟨right, hr, rfl⟩ := mem_rightsOf_toDescription.1 hnames
      rwa [hg.filterMap_spell (hg.declares v right hr)]
    · intro hr
      exact ⟨_, mem_rightsOf_toDescription.2 ⟨right, hr, rfl⟩,
        hg.filterMap_spell (hg.declares v right hr)⟩

/-! ## Validation -/

/-- No right-hand side mentions an undeclared symbol, since it spells declared ones.

**Proof sketch.** The right-hand sides of an entry spell alternatives, and each name in a spelling
is admitted by `declares_of_mem_spell`. -/
lemma WellFormed.undeclaredSymbol?_toDescription (hg : g.WellFormed) :
    g.toDescription.undeclaredSymbol? = none := by
  unfold Description.undeclaredSymbol?
  rw [List.findSome?_eq_none_iff]
  rintro ⟨v, rights⟩ hentry
  rw [List.findSome?_eq_none_iff]
  intro names hnames
  rw [Option.map_eq_none_iff, List.find?_eq_none]
  intro name hname
  have hrights : names ∈ g.toDescription.rightsOf v := by
    rw [Description.rightsOf, SortedMap.mem_toList.1 hentry]
    exact hnames
  obtain ⟨right, hr, rfl⟩ := mem_rightsOf_toDescription.1 hrights
  simp [declares_of_mem_spell (hg.declares v right hr) hname]

/-- **What validation finds.** A variable without alternatives is the only condition that the
description of a well-formed grammar can violate. The five conditions before it follow from the
fields of well-formedness, one by one. -/
theorem WellFormed.violation?_toDescription (hg : g.WellFormed) :
    g.toDescription.violation? = g.toDescription.emptyProductionSet? := by
  have hreserved : g.toDescription.reservedName? = none := by
    rw [Description.reservedName?, Option.map_eq_none_iff, List.find?_eq_none]
    intro name hname
    simpa using hg.ne_epsilonName (List.mem_append.1 hname)
  have hoverlapping : g.toDescription.overlappingName? = none := by
    rw [Description.overlappingName?, Option.map_eq_none_iff, List.find?_eq_none]
    exact fun name hname h => hg.disjoint name hname (of_decide_eq_true h)
  have hstart : g.toDescription.unknownStart? = none := if_pos hg.start_mem
  have hleft : g.toDescription.undeclaredVariable? = none := by
    rw [Description.undeclaredVariable?, Option.map_eq_none_iff, List.find?_eq_none]
    rw [keys_toDescription]
    exact fun name hname h => of_decide_eq_true h (hg.left_mem name hname)
  rw [Description.violation?, hreserved, hoverlapping, hstart, hleft,
    hg.undeclaredSymbol?_toDescription]
  rfl

/-- The description gives a name no right-hand side exactly when the name has no alternative. -/
lemma isEmpty_rightsOf_toDescription {v : Name} :
    (g.toDescription.rightsOf v).isEmpty = true ↔ ∀ right, right ∉ g.alternatives v := by
  rw [SortedSet.isEmpty, List.isEmpty_iff, List.eq_nil_iff_forall_not_mem]
  simp only [← SortedSet.mem_def, mem_rightsOf_toDescription]
  constructor
  · exact fun h right hr => h _ ⟨right, hr, rfl⟩
  · rintro h _ ⟨right, hr, -⟩
    exact h right hr

/-- **Complete grammars**: every variable has an alternative. Stages need not keep a grammar
complete: the start symbol stays declared when it loses all of its own. -/
def Complete (g : Grammar) : Prop := ∀ v ∈ g.nonterminals, ∃ right, right ∈ g.alternatives v

/-- Whether a grammar is complete is decided variable by variable. -/
instance : Decidable g.Complete :=
  decidable_of_iff (g.nonterminals.toList.all fun v => !(g.alternatives v).isEmpty) <| by
    simp only [List.all_eq_true, Bool.not_eq_true', SortedSet.isEmpty,
      List.isEmpty_eq_false_iff_exists_mem]
    rfl

/-- **A complete grammar** is read back from its description: validation finds nothing, and the
described grammar is the given one. -/
theorem WellFormed.ofDescription_toDescription (hg : g.WellFormed) (hcomplete : g.Complete) :
    ofDescription g.toDescription = .ok g := by
  refine ofDescription_eq_ok.2 ⟨?_, hg.toGrammar_toDescription.symm⟩
  rw [hg.violation?_toDescription, Description.emptyProductionSet?, Option.map_eq_none_iff,
    List.find?_eq_none]
  intro v hv hempty
  obtain ⟨right, hr⟩ := hcomplete v hv
  exact isEmpty_rightsOf_toDescription.1 hempty right hr

/-- **A grammar that is not complete** is rejected when its description is read, and the least
variable without alternatives is reported.

**Proof sketch.** Some variable has no alternatives, so the search for the first such variable ends
with one. It is the least, since a smaller one would have been found before. No other condition is
violated, so this is what validation reports. -/
theorem WellFormed.ofDescription_toDescription_of_not_complete (hg : g.WellFormed)
    (hcomplete : ¬ g.Complete) :
    ∃ v, IsLeast {u | u ∈ g.nonterminals ∧ ∀ right, right ∉ g.alternatives u} v ∧
      ofDescription g.toDescription = .error (.emptyProductionSet v) := by
  unfold Complete at hcomplete
  push Not at hcomplete
  obtain ⟨u, hu, hempty⟩ := hcomplete
  cases hfind : g.nonterminals.toList.find? fun v => (g.toDescription.rightsOf v).isEmpty with
  | none =>
    exact absurd (isEmpty_rightsOf_toDescription.2 hempty) (List.find?_eq_none.1 hfind u hu)
  | some v =>
    have hv : v ∈ g.nonterminals := List.mem_of_find?_eq_some hfind
    have hvempty : ∀ right, right ∉ g.alternatives v :=
      isEmpty_rightsOf_toDescription.1 (by simpa using List.find?_some hfind)
    refine ⟨v, ⟨⟨hv, hvempty⟩, ?_⟩, ?_⟩
    · rintro x ⟨hx, hxempty⟩
      by_cases hxv : x = v
      · exact hxv.ge
      · exact le_of_lt (compareOfLessAndEq_eq_lt.1 (SortedSet.compare_of_find? hfind hx
          (isEmpty_rightsOf_toDescription.2 hxempty) hxv))
    · rw [ofDescription_eq_error, hg.violation?_toDescription, Description.emptyProductionSet?]
      exact congrArg (Option.map _) hfind

/-! ## Attainable grammars -/

/-- **Descriptions of attainable grammars.** A complete grammar is read back from its description.
For any other one the description is rejected, and the least variable without alternatives is
reported. In any case nothing is lost: different grammars have different descriptions, since the
described grammar is the given one even where it would be rejected.

**Proof sketch.** The first two parts are known of well-formed grammars. For the third, two
grammars with the same description are both the described grammar. -/
theorem Attainable.description_roundTrip (h : g.Attainable) :
    (g.Complete → ofDescription g.toDescription = .ok g) ∧
    (¬ g.Complete →
      ∃ v, IsLeast {u | u ∈ g.nonterminals ∧ ∀ right, right ∉ g.alternatives u} v ∧
        ofDescription g.toDescription = .error (.emptyProductionSet v)) ∧
    ∀ g' : Grammar, g'.Attainable → g'.toDescription = g.toDescription → g' = g := by
  have hg := h.wellFormed
  refine ⟨hg.ofDescription_toDescription, hg.ofDescription_toDescription_of_not_complete,
    fun g' h' heq => ?_⟩
  calc g'
    _ = g'.toDescription.toGrammar := h'.wellFormed.toGrammar_toDescription.symm
    _ = g.toDescription.toGrammar := by rw [heq]
    _ = g := hg.toGrammar_toDescription

/-- **Endless words**: the description with the only alternative `S → a S`. -/
def endless : Description where
  nonterminals := SortedSet.singleton "S"
  terminals := SortedSet.singleton "a"
  start := "S"
  productions := SortedMap.ofList [("S", SortedSet.ofList [["a", "S"]])]

/-- The description of endless words is accepted. -/
lemma ofDescription_endless : ofDescription endless = .ok endless.toGrammar := rfl

/-- The binary form of the grammar of nested pairs is complete and read back. The grammar of endless
words is not complete any more when its start symbol, which is not productive, has lost its
alternative; its description is rejected then. -/
theorem description_roundTrip_nested_endless :
    ((nested.toGrammar.run [.binarize {}]).Complete ∧
      ofDescription (nested.toGrammar.run [.binarize {}]).toDescription =
        .ok (nested.toGrammar.run [.binarize {}])) ∧
    ¬ (endless.toGrammar.run [.pruneUnproductive]).Complete ∧
      ofDescription (endless.toGrammar.run [.pruneUnproductive]).toDescription =
        .error (.emptyProductionSet "S") := by
  have hcomplete : (nested.toGrammar.run [.binarize {}]).Complete := of_decide_eq_true (by cbv)
  have hincomplete : ¬ (endless.toGrammar.run [.pruneUnproductive]).Complete :=
    of_decide_eq_false (by cbv)
  have hnested := Attainable.description_roundTrip (attainable_nested.run [.binarize {}])
  have hendless := Attainable.description_roundTrip
    ((attainable_of_ofDescription ofDescription_endless).run [.pruneUnproductive])
  obtain ⟨v, hv, hrejected⟩ := hendless.2.1 hincomplete
  obtain rfl : v = "S" := SortedSet.mem_singleton.1 (mem_nonterminals_restrict.1 hv.1.1).1
  exact ⟨⟨hcomplete, hnested.1 hcomplete⟩, hincomplete, hrejected⟩

end Grammar

end ChomskyForm
