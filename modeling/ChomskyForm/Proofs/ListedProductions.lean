import Mathlib.Tactic.Common
import ChomskyForm.Grammar.WellFormed
import ChomskyForm.Rendering.Productions

set_option autoImplicit false
set_option relaxedAutoImplicit false

/-!
# What a listing says about a grammar

A listing is made for printing. What it says about a grammar is stated here without it: the
alternatives of every variable, spelled in names, and the order of the variables that have any. Two
well-formed grammars have the same listing if and only if they agree in both. So whoever can read a
listing back knows all of this, and no more: a start symbol without alternatives is not listed, nor
is a terminal that does not occur.

## Main definitions

* `ChomskyForm.Grammar.leftSides`: the variables with alternatives, in the order of a listing.

## Main results

* `ChomskyForm.Grammar.WellFormed.mem_leftSides`: which variables these are.
* `ChomskyForm.Grammar.listing_eq_iff`: when two grammars have the same listing.
* `ChomskyForm.Grammar.start_eq_of_leftSides`: the start symbol is known if it has alternatives.
-/

namespace ChomskyForm

namespace Grammar

variable {g h : Grammar} {v : Name}

/-- **The left-hand sides** of a grammar: the start symbol first, then the other variables in
ascending order, as far as they have alternatives. -/
def leftSides (g : Grammar) : List Name :=
  (g.start :: g.nonterminals.toList.filter (· ≠ g.start)).filter fun v =>
    (g.alternatives v).toList ≠ []

/-! ## One grammar -/

/-- **The left-hand sides are the variables with alternatives**, all of them, since in a well-formed
grammar nothing but a variable has one. -/
lemma WellFormed.mem_leftSides (hg : g.WellFormed) :
    v ∈ g.leftSides ↔ (g.alternatives v).toList ≠ [] := by
  rw [leftSides, List.mem_filter, decide_eq_true_iff, and_iff_right_iff_imp]
  intro hne
  obtain ⟨form, hform⟩ := List.exists_mem_of_ne_nil _ hne
  by_cases hstart : v = g.start
  · exact hstart ▸ List.mem_cons_self
  · exact List.mem_cons_of_mem _
      (List.mem_filter.2 ⟨hg.mem_nonterminals hform, decide_eq_true hstart⟩)

/-- The start symbol is the first left-hand side, if it is one. -/
lemma head?_leftSides (hstart : g.start ∈ g.leftSides) : g.leftSides.head? = some g.start := by
  have hkeep := (List.mem_filter.1 hstart).2
  rw [leftSides, List.filter_cons, if_pos hkeep, List.head?_cons]

/-- The paragraphs of a listing are those of the left-hand sides. -/
lemma paragraphs_listing (g : Grammar) : g.listing.paragraphs = g.leftSides.map g.paragraph := by
  have hkeep : (fun p : Paragraph => !p.rights.isEmpty) ∘ g.paragraph =
      fun v => decide ((g.alternatives v).toList ≠ []) := by
    funext v
    rw [Bool.eq_iff_iff]
    simp [paragraph]
  rw [listing, leftSides, List.filter_map, hkeep]

/-- The left-hand sides of the paragraphs of a listing are those of the grammar, in the same
order. -/
lemma map_left_paragraphs (g : Grammar) : g.listing.paragraphs.map (·.left) = g.leftSides := by
  rw [paragraphs_listing, List.map_map]
  exact List.map_id _

/-! ## Two grammars -/

/-- **Alternatives are found in a listing**: a left-hand side of one grammar has the same paragraph
in the other one. -/
lemma paragraph_eq_of_listing (heq : g.listing = h.listing) (hv : v ∈ g.leftSides) :
    g.paragraph v = h.paragraph v := by
  have hmem : g.paragraph v ∈ h.listing.paragraphs := by
    rw [← heq, paragraphs_listing]
    exact List.mem_map_of_mem hv
  rw [paragraphs_listing] at hmem
  obtain ⟨w, -, hw⟩ := List.mem_map.1 hmem
  obtain rfl : w = v := congrArg Paragraph.left hw
  exact hw.symm

/-- **When two grammars have the same listing**: their variables have the same alternatives, and
those with alternatives come in the same order.

**Proof sketch.** From right to left, the paragraphs are put together from what is the same. From
left to right, the left-hand sides can be read off the paragraphs. A variable that is one of them
has the same paragraph in both grammars; any other variable has no alternatives in either. -/
theorem listing_eq_iff (hg : g.WellFormed) (hh : h.WellFormed) :
    g.listing = h.listing ↔
      (∀ v, (g.alternatives v).toList.map Symbol.spell =
        (h.alternatives v).toList.map Symbol.spell) ∧
        g.leftSides = h.leftSides := by
  constructor
  · intro heq
    have hleft : g.leftSides = h.leftSides := by
      rw [← map_left_paragraphs, heq, map_left_paragraphs]
    refine ⟨fun v => ?_, hleft⟩
    by_cases hv : v ∈ g.leftSides
    · exact congrArg Paragraph.rights (paragraph_eq_of_listing heq hv)
    · have hgv := not_not.1 (mt hg.mem_leftSides.2 hv)
      have hhv := not_not.1 (mt hh.mem_leftSides.2 (hleft ▸ hv))
      rw [hgv, hhv]
  · rintro ⟨hrights, hleft⟩
    have hparagraph : g.paragraph = h.paragraph :=
      funext fun v => congrArg (Paragraph.mk v) (hrights v)
    have hparagraphs : g.listing.paragraphs = h.listing.paragraphs := by
      rw [paragraphs_listing, paragraphs_listing, hparagraph, hleft]
    exact congrArg Listing.mk hparagraphs

/-- **Start symbols with alternatives are the same** if the left-hand sides are, since they come
first. Nothing can be said of a start symbol without alternatives. -/
lemma start_eq_of_leftSides (hleft : g.leftSides = h.leftSides) (hg : g.start ∈ g.leftSides)
    (hh : h.start ∈ h.leftSides) : g.start = h.start := by
  have hstarts := head?_leftSides hg
  rw [hleft, head?_leftSides hh] at hstarts
  exact (Option.some.inj hstarts).symm

end Grammar

end ChomskyForm
