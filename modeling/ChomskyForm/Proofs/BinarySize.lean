import Mathlib.Algebra.BigOperators.Group.List.Basic
import Mathlib.Algebra.GroupWithZero.Nat
import Mathlib.Data.List.Nodup
import Mathlib.Data.List.Perm.Subperm
import Mathlib.Data.List.Permutation
import ChomskyForm.Proofs.Arrangement
import ChomskyForm.Proofs.StageOrder

set_option autoImplicit false
set_option relaxedAutoImplicit false

/-!
# How much a binarization adds

A binarization keeps the number of alternatives of every variable: two alternatives never get the
same binary form. Each new variable has exactly one alternative. So as many productions are added
as variables, and how many these are can be read off the grammar: one for each terminal that occurs
in a long alternative, and one for each symbol that an alternative has in excess of two.

## Main definitions

* `ChomskyForm.Grammar.longTerminals`: the terminals of the alternatives of two or more symbols.
* `ChomskyForm.Grammar.excess`: how many symbols the alternatives have in excess of two.
* `ChomskyForm.Grammar.newVariables`: the variables that a binarization adds.
* `ChomskyForm.Grammar.roles`: a list of the roles that a grammar calls for.

## Main results

* `ChomskyForm.Grammar.size_alternatives_binarize`: the variables of the grammar keep the number of
  their alternatives.
* `ChomskyForm.Grammar.size_alternatives_newVariable`: a new variable has one alternative.
* `ChomskyForm.Grammar.size_newVariables`: the number of new variables.
* `ChomskyForm.Grammar.Attainable.binarize_size`: all of this, and the number of productions.
-/

namespace ChomskyForm

open Std

/-! ## Sizes of sets -/

namespace SortedSet

variable {α β : Type} [Ord α] [TransOrd α] [LawfulEqOrd α] [Ord β] [TransOrd β] [LawfulEqOrd β]

omit [TransOrd α] [LawfulEqOrd α] [LawfulEqOrd β] in
/-- A set has at most as many members as one that is mapped onto it. Used in both directions, this
compares the alternatives before and after a binarization without an inverse in closed form. -/
lemma size_le_size_of_surjOn {s : SortedSet α} {t : SortedSet β} (f : α → β)
    (h : ∀ b ∈ t, ∃ a ∈ s, f a = b) : t.size ≤ s.size := by
  have hsub : t.toList ⊆ s.toList.map f := fun b hb => List.mem_map.2 (h b hb)
  calc t.size
    _ ≤ (s.toList.map f).length := (List.subperm_of_subset t.nodup_toList hsub).length_le
    _ = s.size := List.length_map f

omit [LawfulEqOrd α] in
/-- The members of a set are those of a part of it and the remaining ones, up to their order. Sums
over the set can so be cut in two. -/
lemma perm_append_filter_notMem [DecidableEq α] {s t : SortedSet α} (h : ∀ a ∈ s, a ∈ t) :
    t.toList.Perm (s.toList ++ (t.filter (· ∉ s)).toList) := by
  have hdisjoint : s.toList.Disjoint (t.filter (· ∉ s)).toList :=
    fun a ha hn => of_decide_eq_true (mem_filter.1 hn).2 ha
  refine (List.perm_ext_iff_of_nodup t.nodup_toList
    (s.nodup_toList.append (nodup_toList _) hdisjoint)).2 fun a => ?_
  rw [List.mem_append]
  by_cases ha : a ∈ s
  · exact ⟨fun _ => .inl ha, fun _ => h a ha⟩
  · refine ⟨fun ht => .inr (mem_filter.2 ⟨ht, decide_eq_true ha⟩), fun hm => ?_⟩
    exact hm.elim (h a) fun hn => (mem_filter.1 hn).1

end SortedSet

namespace Symbol

/-- The letter that a symbol stands for, if it is a terminal. -/
def toTerminal? : Symbol → Option Name
  | terminal a => some a
  | _ => none

/-- A symbol stands for the letter `a` exactly when it is the terminal `a`. -/
@[simp] lemma toTerminal?_eq_some {s : Symbol} {a : Name} :
    s.toTerminal? = some a ↔ s = terminal a := by
  cases s <;> simp [toTerminal?]

/-- **Occurrences of terminals** in a right-hand side, from left to right. A terminal that occurs
twice is listed twice. -/
def terminalsOf (right : List Symbol) : List Name := right.filterMap toTerminal?

/-- A letter occurs in a right-hand side exactly when its terminal does. -/
@[simp] lemma mem_terminalsOf {right : List Symbol} {a : Name} :
    a ∈ terminalsOf right ↔ terminal a ∈ right := by
  simp [terminalsOf]

end Symbol

namespace Grammar

variable {g : Grammar} {naming : Naming}

/-! ## Productions -/

/-- **Every rule is listed once**: the alternatives of an entry are different, and rules of
different entries have different left-hand sides. -/
lemma nodup_rules (g : Grammar) : g.rules.Nodup := by
  refine List.nodup_flatMap.2 ⟨fun entry _ => ?_, g.productions.ascending.imp fun hlt => ?_⟩
  · exact entry.2.nodup_toList.map fun _ _ heq => (Rule.mk.inj heq).2
  · rintro r hr hr'
    obtain ⟨right, -, rfl⟩ := List.mem_map.1 hr
    obtain ⟨right', -, heq⟩ := List.mem_map.1 hr'
    exact compare_self_ne_lt ((Rule.mk.inj heq).1 ▸ hlt)

/-- **Productions are counted by their left-hand sides.**

**Proof sketch.** The rules are listed entry by entry, so their number is the sum over the keys.
The variables are the keys and those without an entry (`perm_append_filter_notMem`), and the latter
have no alternatives and add nothing. -/
lemma WellFormed.productionCount_eq (hg : g.WellFormed) :
    g.productionCount = (g.nonterminals.toList.map fun v => (g.alternatives v).size).sum := by
  have hkeys : g.productionCount =
      (g.productions.keys.toList.map fun v => (g.alternatives v).size).sum := by
    rw [productionCount, rules, List.length_flatMap, SortedMap.keys, List.map_map]
    refine congrArg List.sum (List.map_congr_left fun entry he => ?_)
    rw [List.length_map, Function.comp_apply, alternatives, SortedMap.mem_toList.1 he]
    rfl
  have hperm := SortedSet.perm_append_filter_notMem hg.left_mem
  have hnone : ((g.nonterminals.filter (· ∉ g.productions.keys)).toList.map
      fun v => (g.alternatives v).size).sum = 0 := by
    refine List.sum_eq_zero fun n hn => ?_
    obtain ⟨v, hv, rfl⟩ := List.mem_map.1 hn
    have hkey := of_decide_eq_true (SortedSet.mem_filter.1 hv).2
    rw [SortedMap.mem_keys_iff_isSome, Option.not_isSome_iff_eq_none] at hkey
    rw [alternatives, hkey]
    rfl
  rw [(hperm.map _).sum_eq, List.map_append, List.sum_append, hnone, ← hkeys, Nat.add_zero]

/-! ## Roles -/

/-- **The terminals of long alternatives**, those of two or more symbols. A terminal that is an
alternative on its own is not among them unless it occurs in a long one too. -/
def longTerminals (g : Grammar) : SortedSet Name :=
  SortedSet.ofList ((g.rules.filter (2 ≤ ·.right.length)).flatMap (Symbol.terminalsOf ·.right))

/-- **The excess**: how many symbols the alternatives have in excess of two, all together.
Alternatives of fewer than two symbols count as nothing. -/
def excess (g : Grammar) : Nat := (g.rules.map fun r => r.right.length - 2).sum

/-- **The roles that a grammar calls for**, listed: a letter for each terminal of a long
alternative, and a link for each symbol in excess of two. -/
def roles (g : Grammar) : List Role :=
  g.longTerminals.toList.map .letter ++
    g.rules.flatMap fun r => (List.range (r.right.length - 2)).map (.link r)

/-- The terminals of long alternatives are those that occur in some rule with two or more
symbols. -/
lemma mem_longTerminals {a : Name} :
    a ∈ g.longTerminals ↔ ∃ r ∈ g.rules, 2 ≤ r.right.length ∧ .terminal a ∈ r.right := by
  simp [longTerminals, and_assoc]

/-- **The list holds the roles that are called for.** A rule calls for the letters of its terminals
if it is long, and for as many links as it has symbols in excess of two. -/
lemma mem_roles {ρ : Role} : ρ ∈ g.roles ↔ g.Calls ρ := by
  simp only [roles, Calls, List.mem_append, List.mem_map, List.mem_flatMap, List.mem_range,
    ← SortedSet.mem_def, mem_longTerminals, mem_rules]
  cases ρ with
  | letter a => simp [Rule.Calls, Rule.CallsBelow]
  | link r k =>
    simp only [reduceCtorEq, and_false, exists_false, false_or, Role.link.injEq, Rule.Calls,
      Rule.CallsBelow]
    constructor
    · rintro ⟨r', hr, j, hj, rfl, rfl⟩
      exact ⟨r', hr, by omega, rfl, hj⟩
    · rintro ⟨r', hr, -, rfl, hk⟩
      exact ⟨r, hr, k, hk, rfl, rfl⟩

/-- **The list holds each role once.**

**Proof sketch.** Different letters are different roles, and so are links of different rules or at
different places; rules are listed once (`nodup_rules`). A letter is never a link. -/
lemma nodup_roles (g : Grammar) : g.roles.Nodup := by
  have hletters : (g.longTerminals.toList.map Role.letter).Nodup :=
    g.longTerminals.nodup_toList.map fun _ _ heq => Role.letter.inj heq
  have hlinks : (g.rules.flatMap fun r =>
      (List.range (r.right.length - 2)).map (Role.link r)).Nodup := by
    refine List.nodup_flatMap.2 ⟨fun r _ => ?_, g.nodup_rules.imp fun hne => ?_⟩
    · exact List.nodup_range.map fun _ _ heq => (Role.link.inj heq).2
    · intro ρ hρ hρ'
      obtain ⟨k, -, rfl⟩ := List.mem_map.1 hρ
      obtain ⟨k', -, heq⟩ := List.mem_map.1 hρ'
      exact hne (Role.link.inj heq).1.symm
  refine hletters.append hlinks fun ρ hρ hρ' => ?_
  obtain ⟨a, -, rfl⟩ := List.mem_map.1 hρ
  simp at hρ'

/-- There are as many roles as terminals of long alternatives and symbols in excess of two. -/
lemma length_roles (g : Grammar) : g.roles.length = g.longTerminals.size + g.excess := by
  simp [roles, excess, List.length_flatMap, SortedSet.size]

/-! ## The binary form -/

/-- **The new variables** of a binarization: those that are variables afterwards and were none
before. How they were made does not enter here. -/
def newVariables (g : Grammar) (naming : Naming) : SortedSet Name :=
  (g.binarize naming).nonterminals.filter (· ∉ g.nonterminals)

/-- A new variable is a variable afterwards that was none before. -/
@[simp] lemma mem_newVariables {v : Name} :
    v ∈ g.newVariables naming ↔ v ∈ (g.binarize naming).nonterminals ∧ v ∉ g.nonterminals := by
  simp [newVariables]

/-- The binarization removes no variable. -/
lemma mem_nonterminals_binarize (naming : Naming) {v : Name} (hv : v ∈ g.nonterminals) :
    v ∈ (g.binarize naming).nonterminals :=
  SortedSet.mem_union.2 (.inr hv)

/-- **The new variables are those of the roles**, since none of these is a variable of the
grammar. -/
lemma Arrangement.mem_newVariables {ν : Role → Name} (h : g.Arrangement ν (g.binarize naming))
    {v : Name} : v ∈ g.newVariables naming ↔ ∃ ρ, g.Calls ρ ∧ ν ρ = v := by
  rw [Grammar.mem_newVariables, h.nonterminals, or_and_right]
  simp only [and_not_self, false_or, and_iff_left_iff_imp]
  rintro ⟨ρ, hρ, rfl⟩
  exact h.new ρ hρ

/-- **A variable of the grammar keeps the number of its alternatives.**

**Proof sketch.** Every alternative that it has afterwards is the binary form of one that it had
before, so these are not fewer. Every alternative that it had is what one that it has afterwards
expands to, so those are not fewer either: no two alternatives have the same binary form. -/
theorem size_alternatives_binarize (hg : g.WellFormed) (naming : Naming) {v : Name}
    (hv : v ∈ g.nonterminals) :
    ((g.binarize naming).alternatives v).size = (g.alternatives v).size := by
  refine Nat.le_antisymm ?_ ?_
  · obtain ⟨ν, harr⟩ := exists_arrangement hg naming
    refine SortedSet.size_le_size_of_surjOn (fun right => Rule.binary ν ⟨v, right⟩)
      fun right hr => ?_
    rcases (harr.alternatives v right).1 hr with ⟨r, hrule, rfl, hbinary⟩ | ⟨ρ, hρ, rfl, -⟩
    · exact ⟨r.right, hrule, hbinary⟩
    · exact absurd hv (harr.new ρ hρ)
  · obtain ⟨f, b, hb, -, hcovered⟩ := Binarization.exists_faithful hg naming
    rw [hb]
    exact SortedSet.size_le_size_of_surjOn (substitute f) fun right hr => hcovered ⟨v, right⟩ hr

/-- **A new variable has one alternative**, that of its role.

**Proof sketch.** No rule has a new variable on its left, so its alternatives are those of the
roles that it has; and it has one role only, as different roles have different variables. -/
theorem size_alternatives_newVariable (hg : g.WellFormed) {v : Name}
    (hv : v ∈ g.newVariables naming) : ((g.binarize naming).alternatives v).size = 1 := by
  obtain ⟨ν, harr⟩ := exists_arrangement hg naming
  obtain ⟨ρ, hρ, rfl⟩ := harr.mem_newVariables.1 hv
  refine SortedSet.size_eq_length (List.nodup_singleton (ρ.right ν)) fun right => ?_
  rw [harr.alternatives, List.mem_singleton]
  constructor
  · rintro (⟨r, hr, hleft, -⟩ | ⟨ρ', hρ', heq, rfl⟩)
    · exact absurd (hleft ▸ hg.mem_nonterminals hr) (harr.new ρ hρ)
    · rw [harr.injOn hρ' hρ heq]
  · rintro rfl
    exact .inr ⟨ρ, hρ, rfl, rfl⟩

/-- **The number of new variables**: one for each role. The naming is injective on the roles, so
listing the roles lists the new variables once each. -/
theorem size_newVariables (hg : g.WellFormed) (naming : Naming) :
    (g.newVariables naming).size = g.longTerminals.size + g.excess := by
  obtain ⟨ν, harr⟩ := exists_arrangement hg naming
  have hnodup : (g.roles.map ν).Nodup := g.nodup_roles.map_on fun ρ hρ ρ' hρ' heq =>
    harr.injOn (mem_roles.1 hρ) (mem_roles.1 hρ') heq
  calc (g.newVariables naming).size
    _ = (g.roles.map ν).length := SortedSet.size_eq_length hnodup fun v => by
          simp only [harr.mem_newVariables, List.mem_map, mem_roles]
    _ = g.roles.length := List.length_map ν
    _ = g.longTerminals.size + g.excess := length_roles g

/-- **The number of productions** grows by that of the new variables.

**Proof sketch.** Productions are counted by their left-hand sides, which are the variables of the
grammar and the new ones. The former keep the number of their alternatives and the latter have one
each. -/
theorem productionCount_binarize (hg : g.WellFormed) (naming : Naming) :
    (g.binarize naming).productionCount = g.productionCount + (g.newVariables naming).size := by
  have hold : (g.nonterminals.toList.map fun v => ((g.binarize naming).alternatives v).size) =
      g.nonterminals.toList.map fun v => (g.alternatives v).size :=
    List.map_congr_left fun v hv => size_alternatives_binarize hg naming hv
  have hnew : ((g.newVariables naming).toList.map fun v =>
      ((g.binarize naming).alternatives v).size) = (g.newVariables naming).toList.map fun _ => 1 :=
    List.map_congr_left fun v hv => size_alternatives_newVariable hg hv
  have hperm : (g.binarize naming).nonterminals.toList.Perm
      (g.nonterminals.toList ++ (g.newVariables naming).toList) :=
    SortedSet.perm_append_filter_notMem fun _ => mem_nonterminals_binarize naming
  calc (g.binarize naming).productionCount
    _ = ((g.nonterminals.toList ++ (g.newVariables naming).toList).map fun v =>
          ((g.binarize naming).alternatives v).size).sum := by
          rw [(wellFormed_binarize hg naming).productionCount_eq, (hperm.map _).sum_eq]
    _ = g.productionCount + ((g.newVariables naming).toList.map fun _ => 1).sum := by
          rw [List.map_append, List.sum_append, hold, hnew, hg.productionCount_eq]
    _ = g.productionCount + (g.newVariables naming).size := by simp [SortedSet.size]

/-- **Echoes**: the description with the alternatives `S → a S a`, `S → a a` and `S → ε`. -/
def echoing : Description where
  nonterminals := SortedSet.singleton "S"
  terminals := SortedSet.singleton "a"
  start := "S"
  productions := SortedMap.ofList [("S", SortedSet.ofList [["a", "S", "a"], ["a", "a"], ["ε"]])]

/-- The grammar of echoes is attainable. -/
lemma attainable_echoing : echoing.toGrammar.Attainable :=
  attainable_of_ofDescription (d := echoing) rfl

/-- **The size of a binarization.** Whatever the naming of new variables, an attainable grammar
keeps its terminals, its start symbol, its variables and the number of their alternatives. Each new
variable has one alternative. There are as many new variables as there are different terminals in
long alternatives and symbols in excess of two, and as many new productions as new variables. -/
theorem Attainable.binarize_size (h : g.Attainable) (naming : Naming) :
    (∀ v ∈ g.nonterminals, v ∈ (g.binarize naming).nonterminals ∧
      ((g.binarize naming).alternatives v).size = (g.alternatives v).size) ∧
    (∀ v ∈ g.newVariables naming, ((g.binarize naming).alternatives v).size = 1) ∧
    (g.newVariables naming).size = g.longTerminals.size + g.excess ∧
    (g.binarize naming).productionCount = g.productionCount + (g.newVariables naming).size ∧
    (g.binarize naming).terminals = g.terminals ∧ (g.binarize naming).start = g.start :=
  have hg := h.wellFormed
  ⟨fun _ hv => ⟨mem_nonterminals_binarize naming hv, size_alternatives_binarize hg naming hv⟩,
    fun _ hv => size_alternatives_newVariable hg hv, size_newVariables hg naming,
    productionCount_binarize hg naming, rfl, rfl⟩

/-- The size of the binarization of the grammar of echoes, whose terminal occurs four times and gets
one variable; the new variables are named like the start symbol. -/
theorem binarize_size_echoing :
    echoing.toGrammar.Attainable ∧
      ("S" ∈ echoing.toGrammar.nonterminals ∧
        ((echoing.toGrammar.binarize ⟨"S", "S", 0⟩).alternatives "S").size = 3) ∧
      ("S1" ∈ echoing.toGrammar.newVariables ⟨"S", "S", 0⟩ ∧
        ((echoing.toGrammar.binarize ⟨"S", "S", 0⟩).alternatives "S1").size = 1) ∧
      (echoing.toGrammar.newVariables ⟨"S", "S", 0⟩).size = 2 ∧
      (echoing.toGrammar.binarize ⟨"S", "S", 0⟩).productionCount = 5 := by
  obtain ⟨hold, hnew, hsize, hcount, -⟩ :=
    Attainable.binarize_size attainable_echoing ⟨"S", "S", 0⟩
  have hstart : "S" ∈ echoing.toGrammar.nonterminals := by decide
  have hchain : "S1" ∈ echoing.toGrammar.newVariables ⟨"S", "S", 0⟩ := of_decide_eq_true (by cbv)
  have htwo : (echoing.toGrammar.newVariables ⟨"S", "S", 0⟩).size = 2 := hsize
  refine ⟨attainable_echoing, ⟨hstart, (hold "S" hstart).2⟩, ⟨hchain, hnew "S1" hchain⟩, htwo, ?_⟩
  rw [hcount, htwo]
  rfl

end Grammar

end ChomskyForm
