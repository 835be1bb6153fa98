import ChomskyForm.Proofs.EmptyAlternatives
import ChomskyForm.Stage.Unit

set_option autoImplicit false
set_option relaxedAutoImplicit false

/-!
# Unit alternatives can be left out

A chain of unit steps ends in an alternative that is not a unit, and the variable at the beginning
of the chain has this alternative itself after the elimination. The empty alternative of the
start symbol is the exception: other variables do not take it over. So words can be lost, but not
those that are generated without empty alternatives, and a purged grammar loses none.

## Main results

* `ChomskyForm.Grammar.mem_alternatives_eliminateUnits`: the alternatives after the elimination.
* `ChomskyForm.Grammar.generates_of_eliminateUnits`: the elimination adds no words.
* `ChomskyForm.Grammar.generates_withoutEmpty_eliminateUnits`: what is generated without empty
  alternatives is not lost.
* `ChomskyForm.Grammar.Purged.generates_eliminateUnits`: a purged grammar generates the same words
  as before.
* `ChomskyForm.Grammar.Purged.eliminateUnits`: a purged grammar stays purged.
-/

namespace ChomskyForm

namespace Grammar

open Relation

variable {g : Grammar}

/-! ## The alternatives -/

/-- **The alternatives after the elimination** are those that a variable takes over from the
variables that unit steps lead to. No steps at all lead to the variable itself, so it keeps what is
no unit.

**Proof sketch.** The entry of a variable is collected from all names that it is paired with, which
are those that unit steps lead to. From each of them the alternatives are taken that the variable
inherits. -/
theorem mem_alternatives_eliminateUnits {v : Name} {right : List Symbol} :
    right ∈ g.eliminateUnits.alternatives v ↔ v ∈ g.nonterminals ∧
      ∃ u, ReflTransGen g.UnitStep v u ∧ right ∈ g.alternatives u ∧
        g.inherits v u right = true := by
  have hentry : ∀ reached : SortedSet Name,
      right ∈ SortedSet.ofList (reached.toList.flatMap fun u =>
        (g.alternatives u).toList.filter (g.inherits v u)) ↔
      ∃ u ∈ reached, right ∈ g.alternatives u ∧ g.inherits v u right = true := by
    intro reached
    simp [← SortedSet.mem_def]
  have hpairs : ∀ rights, g.eliminateUnits.productions.get? v = some rights ↔
      v ∈ g.nonterminals ∧ SortedSet.ofList ((g.unitEdges.reachableFrom v).toList.flatMap fun u =>
        (g.alternatives u).toList.filter (g.inherits v u)) = rights := by
    intro rights
    simp only [eliminateUnits, SortedMap.get?_mapValues, Option.map_eq_some_iff, mem_unitPairs]
    constructor
    · rintro ⟨_, ⟨hv, rfl⟩, hrights⟩
      exact ⟨hv, hrights⟩
    · rintro ⟨hv, hrights⟩
      exact ⟨_, ⟨hv, rfl⟩, hrights⟩
  rw [mem_alternatives]
  constructor
  · rintro ⟨rights, hrights, hr⟩
    obtain ⟨hv, rfl⟩ := (hpairs rights).1 hrights
    obtain ⟨u, hu, hr⟩ := (hentry _).1 hr
    exact ⟨hv, u, mem_reachableFrom_unitEdges.1 hu, hr⟩
  · rintro ⟨hv, u, hu, hr⟩
    exact ⟨_, (hpairs _).2 ⟨hv, rfl⟩, (hentry _).2 ⟨u, mem_reachableFrom_unitEdges.2 hu, hr⟩⟩

/-- A right-hand side is no unit if it is not a single variable. -/
lemma unit?_eq_none {right : List Symbol} :
    Symbol.unit? right = none ↔ ∀ x, right ≠ [.nonterminal x] := by
  rw [Option.eq_none_iff_forall_ne_some]
  exact forall_congr' fun x => not_congr Symbol.unit?_eq_some

/-- A variable takes over an alternative that is not a unit, unless it is the empty alternative of
the start symbol and the variable is another one. An empty alternative of any other variable is
handed on. -/
lemma inherits_iff {v u : Name} {right : List Symbol} :
    g.inherits v u right = true ↔
      (∀ x, right ≠ [.nonterminal x]) ∧ (right ≠ [] ∨ v = g.start ∨ u ≠ g.start) := by
  simp [inherits, unit?_eq_none, or_assoc]

/-! ## The generated words -/

/-- What unit steps lead to generates nothing that is not generated before them, by induction on
the steps. -/
lemma generates_of_unitSteps {v u : Name} (h : ReflTransGen g.UnitStep v u) {w : List Name}
    (hw : g.Generates [.nonterminal u] w) : g.Generates [.nonterminal v] w := by
  induction h with
  | refl => exact hw
  | tail _ step ih => exact ih (generates_nonterminal.2 ⟨_, step, hw⟩)

/-- The elimination adds no words, since an alternative that is taken over is at the end of unit
steps. -/
theorem generates_of_eliminateUnits {form : List Symbol} {w : List Name}
    (h : g.eliminateUnits.Generates form w) : g.Generates form w := by
  refine h.translate fun v right hr w hw => ?_
  obtain ⟨-, u, hu, hr, -⟩ := mem_alternatives_eliminateUnits.1 hr
  exact generates_of_unitSteps hu (generates_nonterminal.2 ⟨right, hr, hw⟩)

/-- **Nothing is lost that is generated without empty alternatives.**

**Proof sketch.** Each rule without an empty right-hand side is sound after the elimination. If it
is a unit, the word is generated there by an alternative that the variable on its right-hand side
takes over from some other variable; being not empty, this alternative is also taken over by the
variable on the left, one unit step away. -/
theorem generates_withoutEmpty_eliminateUnits (hg : g.WellFormed) {form : List Symbol}
    {w : List Name} (h : g.withoutEmpty.Generates form w) :
    g.eliminateUnits.withoutEmpty.Generates form w := by
  refine h.translate fun v right hr w hw => ?_
  obtain ⟨hr, hne⟩ := mem_alternatives_withoutEmpty.1 hr
  have hv : v ∈ g.nonterminals := hg.mem_nonterminals hr
  by_cases hunit : ∃ u, right = [.nonterminal u]
  · obtain ⟨u, rfl⟩ := hunit
    obtain ⟨last, hlast, hw⟩ := generates_nonterminal.1 hw
    obtain ⟨hlast, hlastne⟩ := mem_alternatives_withoutEmpty.1 hlast
    obtain ⟨-, x, hx, hlast, hinherits⟩ := mem_alternatives_eliminateUnits.1 hlast
    have hinherits' : g.inherits v x last = true :=
      inherits_iff.2 ⟨(inherits_iff.1 hinherits).1, .inl hlastne⟩
    have hmem : last ∈ g.eliminateUnits.alternatives v :=
      mem_alternatives_eliminateUnits.2 ⟨hv, x, hx.head hr, hlast, hinherits'⟩
    exact generates_nonterminal.2 ⟨last, mem_alternatives_withoutEmpty.2 ⟨hmem, hlastne⟩, hw⟩
  · have hinherits : g.inherits v v right = true :=
      inherits_iff.2 ⟨fun u hu => hunit ⟨u, hu⟩, .inl hne⟩
    have hmem : right ∈ g.eliminateUnits.alternatives v :=
      mem_alternatives_eliminateUnits.2 ⟨hv, v, .refl, hr, hinherits⟩
    exact generates_nonterminal.2 ⟨right, mem_alternatives_withoutEmpty.2 ⟨hmem, hne⟩, hw⟩

/-! ## Purged grammars -/

/-- In a purged grammar the elimination leaves the empty alternative where it was. It belongs to
the start symbol, and is not handed on. -/
lemma Purged.nil_mem_eliminateUnits (h : g.Purged) (hg : g.WellFormed) {v : Name} :
    [] ∈ g.eliminateUnits.alternatives v ↔ v = g.start ∧ [] ∈ g.alternatives g.start := by
  rw [mem_alternatives_eliminateUnits]
  constructor
  · rintro ⟨-, u, -, hnil, hinherits⟩
    have hu : u = g.start := h.eq_start u hnil
    have hv : v = g.start := by
      rcases (inherits_iff.1 hinherits).2 with hne | hv | hne
      · exact absurd rfl hne
      · exact hv
      · exact absurd hu hne
    exact ⟨hv, hu ▸ hnil⟩
  · rintro ⟨rfl, hnil⟩
    exact ⟨hg.start_mem, g.start, .refl, hnil, inherits_iff.2 ⟨by simp, .inr (.inl rfl)⟩⟩

/-- **A purged grammar stays purged.** No word needs an empty alternative before, and what is
generated without them is not lost. -/
theorem Purged.eliminateUnits (h : g.Purged) (hg : g.WellFormed) : g.eliminateUnits.Purged :=
  h.of_stage rfl (fun _ hv => ((h.nil_mem_eliminateUnits hg).1 hv).1)
    (fun _ hgen => generates_of_eliminateUnits hgen)
    (fun _ hgen => generates_withoutEmpty_eliminateUnits hg hgen)

/-- The elimination keeps a grammar well formed, as alternatives only change their owners. -/
lemma wellFormed_eliminateUnits (hg : g.WellFormed) : g.eliminateUnits.WellFormed where
  start_mem := hg.start_mem
  disjoint := hg.disjoint
  unreserved_nonterminals := hg.unreserved_nonterminals
  unreserved_terminals := hg.unreserved_terminals
  left_mem := by
    intro v hv
    simpa [Grammar.eliminateUnits, unitPairs] using hv
  declares := by
    intro v right hr s hs
    obtain ⟨-, u, -, hr, -⟩ := mem_alternatives_eliminateUnits.1 hr
    exact hg.declares u right hr s hs

/-- **A purged grammar generates the same words as before.** The empty word is generated by the
empty alternative of the start symbol, and every other word without empty alternatives. -/
theorem Purged.generates_eliminateUnits (h : g.Purged) (hg : g.WellFormed) {w : List Name} :
    g.eliminateUnits.Generates [.nonterminal g.start] w ↔
      g.Generates [.nonterminal g.start] w := by
  refine ⟨generates_of_eliminateUnits, fun hgen => ?_⟩
  by_cases hw : w = []
  · subst hw
    have hnil := (h.generates_nil_iff hg).1 hgen
    exact generates_nonterminal.2 ⟨[], (h.nil_mem_eliminateUnits hg).2 ⟨rfl, hnil⟩, .nil⟩
  · exact (generates_withoutEmpty_eliminateUnits hg (h.dispensable w hw hgen)).of_withoutEmpty

end Grammar

end ChomskyForm
