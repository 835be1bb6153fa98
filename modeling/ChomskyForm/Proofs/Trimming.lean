import ChomskyForm.Proofs.Pruning
import ChomskyForm.Proofs.UnitAlternatives

set_option autoImplicit false
set_option relaxedAutoImplicit false

/-!
# The grammar before its binarization

Normalization eliminates empty and unit alternatives and removes useless variables, before it makes
alternatives binary. The grammar that it arrives at by then is trimmed: it generates the same words,
no alternative is a single variable, only the start symbol may have an empty one, and all variables
are of use, except that the start symbol stays declared when it generates no word.

## Main definitions

* `ChomskyForm.Grammar.trim`: what normalization does before the binarization.

## Main results

* `ChomskyForm.Grammar.purged_trim`: a trimmed grammar is purged.
* `ChomskyForm.Grammar.generates_trim`: it generates the same words.
* `ChomskyForm.Grammar.reachable_trim`, `ChomskyForm.Grammar.productive_trim`: its variables are
  reachable, and productive if the start symbol is.
* `ChomskyForm.Grammar.nonterminals_trim`, `ChomskyForm.Grammar.productions_trim`: otherwise it has
  no variable but the start symbol, and no productions.
-/

namespace ChomskyForm

namespace Grammar

variable {g : Grammar}

/-- **Trimming**: normalization without the binarization. Unreachable variables are removed a
second time, since the removal of unproductive ones may take away what led to a variable. -/
def trim (g : Grammar) : Grammar :=
  g.eliminateEpsilon.eliminateUnits.pruneUnreachable.pruneUnproductive.pruneUnreachable

/-- Trimming keeps the start symbol. -/
@[simp] lemma start_trim (g : Grammar) : g.trim.start = g.start := rfl

/-- Trimming keeps the terminals, also those that do not occur any more. -/
@[simp] lemma terminals_trim (g : Grammar) : g.trim.terminals = g.terminals := rfl

/-- Trimming adds no variables, as each of its last three stages only takes some away. -/
lemma mem_nonterminals_of_trim {v : Name} (hv : v ∈ g.trim.nonterminals) : v ∈ g.nonterminals := by
  have hv := (mem_nonterminals_restrict.1 hv).1
  have hv := (mem_nonterminals_restrict.1 hv).1
  exact (mem_nonterminals_restrict.1 hv).1

/-! ## Words and form -/

/-- A trimmed grammar is well formed, as all stages keep grammars so. -/
lemma wellFormed_trim (hg : g.WellFormed) : g.trim.WellFormed := by
  have hu := wellFormed_eliminateUnits (wellFormed_eliminateEpsilon hg)
  exact wellFormed_restrict (wellFormed_restrict (wellFormed_restrict hu _) _) _

/-- **A trimmed grammar is purged.** It becomes so when empty alternatives are eliminated, and all
later stages keep it so, since units are eliminated after empty alternatives. -/
theorem purged_trim (hg : g.WellFormed) : g.trim.Purged := by
  have hpurged : g.eliminateEpsilon.eliminateUnits.Purged :=
    (purged_eliminateEpsilon hg).eliminateUnits (wellFormed_eliminateEpsilon hg)
  exact ((hpurged.restrict (retains_reachable _)).restrict (retains_productive _)).restrict
    (retains_reachable _)

/-- The start symbol generates the same words when the unproductive variables are looked for. So
whether it is productive then depends on the words of the given grammar. -/
lemma generates_beforePruning (hg : g.WellFormed) {w : List Name} :
    g.eliminateEpsilon.eliminateUnits.pruneUnreachable.Generates [.nonterminal g.start] w ↔
      g.Generates [.nonterminal g.start] w := by
  have hpurged := purged_eliminateEpsilon hg
  have hwf := wellFormed_eliminateEpsilon hg
  calc g.eliminateEpsilon.eliminateUnits.pruneUnreachable.Generates [.nonterminal g.start] w
    _ ↔ g.eliminateEpsilon.eliminateUnits.Generates [.nonterminal g.start] w :=
          (retains_reachable _).generates_start
    _ ↔ g.eliminateEpsilon.Generates [.nonterminal g.start] w :=
          hpurged.generates_eliminateUnits hwf
    _ ↔ g.Generates [.nonterminal g.start] w := generates_start_eliminateEpsilon hg

/-- **Trimming keeps the generated words** of the start symbol. Other variables may lose the empty
word. -/
theorem generates_trim (hg : g.WellFormed) {w : List Name} :
    g.trim.Generates [.nonterminal g.start] w ↔ g.Generates [.nonterminal g.start] w := by
  calc g.trim.Generates [.nonterminal g.start] w
    _ ↔ g.eliminateEpsilon.eliminateUnits.pruneUnreachable.pruneUnproductive.Generates
          [.nonterminal g.start] w := (retains_reachable _).generates_start
    _ ↔ g.eliminateEpsilon.eliminateUnits.pruneUnreachable.Generates [.nonterminal g.start] w :=
          (retains_productive _).generates_start
    _ ↔ g.Generates [.nonterminal g.start] w := generates_beforePruning hg

/-- No alternative of a trimmed grammar is a single variable: there is none after the elimination
of unit alternatives, and restrictions add no alternatives. -/
lemma unit_notMem_trim (v u : Name) : [.nonterminal u] ∉ g.trim.alternatives v := by
  intro hr
  have hr := (mem_alternatives_restrict.1 hr).1
  have hr := (mem_alternatives_restrict.1 hr).1
  have hr := (mem_alternatives_restrict.1 hr).1
  obtain ⟨-, x, -, -, hinherits⟩ := mem_alternatives_eliminateUnits.1 hr
  exact (inherits_iff.1 hinherits).1 u rfl

/-! ## Useful variables -/

/-- **Every variable is reachable**, since the last stage removes those that are not. -/
lemma reachable_trim {v : Name} (hv : v ∈ g.trim.nonterminals) : v ∈ g.trim.reachable :=
  reachable_pruneUnreachable hv

/-- The start symbol is productive when the unproductive variables are looked for, if it generates a
word. -/
lemma start_mem_productive_iff (hg : g.WellFormed) :
    g.start ∈ g.eliminateEpsilon.eliminateUnits.pruneUnreachable.productive ↔
      ∃ w, g.Generates [.nonterminal g.start] w := by
  rw [mem_productive]
  exact exists_congr fun w => generates_beforePruning hg

/-- **Every variable is productive** if the start symbol generates a word. Those that are not have
been removed before the last stage, which takes nothing away from those that it keeps. -/
theorem productive_trim (hg : g.WellFormed) {w : List Name}
    (hw : g.Generates [.nonterminal g.start] w) {v : Name} (hv : v ∈ g.trim.nonterminals) :
    v ∈ g.trim.productive := by
  have hstart := (start_mem_productive_iff hg).2 ⟨w, hw⟩
  refine productive_pruneUnreachable hv (productive_pruneUnproductive hstart ?_)
  exact (mem_nonterminals_restrict.1 hv).1

/-! ## Grammars without words -/

section NoWords

variable (hg : g.WellFormed) (h : ∀ w, ¬ g.Generates [.nonterminal g.start] w)

include hg h

/-- Without words, the start symbol leads nowhere after the removal of unproductive variables: each
of its alternatives would have to be kept, but it is unproductive itself. -/
lemma eq_start_of_reachable {v : Name}
    (hv : v ∈ g.eliminateEpsilon.eliminateUnits.pruneUnreachable.pruneUnproductive.reachable) :
    v = g.start := by
  have hstart := mt (start_mem_productive_iff hg).1 (not_exists.2 h)
  by_contra hne
  exact hstart (start_mem_productive_of_reachable hv hne)

/-- **Without words, only the start symbol is left.** It is always kept, so that there is a
grammar. -/
theorem nonterminals_trim : g.trim.nonterminals = SortedSet.singleton g.start := by
  refine SortedSet.ext fun v => ?_
  rw [SortedSet.mem_singleton]
  constructor
  · intro hv
    rcases (mem_nonterminals_restrict.1 hv).2 with hv | hv
    · exact eq_start_of_reachable hg h hv
    · exact hv
  · rintro rfl
    exact (wellFormed_trim hg).start_mem

/-- **Without words, no production is left**, not even an entry of the start symbol without
alternatives. -/
theorem productions_trim : g.trim.productions = ∅ := by
  have hstart := mt (start_mem_productive_iff hg).1 (not_exists.2 h)
  have hkeys : ∀ v, v ∉ g.trim.productions.keys := by
    intro v hv
    obtain ⟨hkey, hv⟩ := mem_keys_restrict.1 hv
    rw [eq_start_of_reachable hg h hv] at hkey
    exact hstart (mem_keys_restrict.1 hkey).2
  refine SortedMap.ext fun v => ?_
  have hv := hkeys v
  rw [SortedMap.mem_keys_iff_isSome] at hv
  simpa using hv

end NoWords

end Grammar

end ChomskyForm
