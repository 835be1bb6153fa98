import ChomskyForm.Proofs.Agreement
import ChomskyForm.Proofs.Idempotence
import ChomskyForm.Proofs.NormalForm

set_option autoImplicit false
set_option relaxedAutoImplicit false

/-!
# Normalizing again

A normalized grammar may change when it is normalized again: if its start symbol has an empty
alternative and occurs in other alternatives, then a pair of variables of which one is nullable
loses that one, and the other one is a unit alternative for a while. Its alternatives are taken
over. But no variable is lost and none is new, and after that the grammar does not change any more.

## Main definitions

* `ChomskyForm.Grammar.Neat`: grammars in Chomsky normal form whose variables are all of use.
* `ChomskyForm.Grammar.Passes`: the relation of a variable to what is left of its pairs when a
  nullable variable is left out.

## Main results

* `ChomskyForm.Grammar.binarize_eq_self`: the binarization leaves Chomsky normal form as it is.
* `ChomskyForm.Grammar.Neat.normalize_eq`: a neat grammar is normalized by the elimination of empty
  and unit alternatives alone.
* `ChomskyForm.Grammar.Neat.mem_alternatives_normalize`: the alternatives that it has then.
* `ChomskyForm.Grammar.Neat.normalize_normalize`: to normalize it again changes nothing.
* `ChomskyForm.Grammar.Attainable.normalize_stable`: what happens to the normal form of an
  attainable grammar.
-/

namespace ChomskyForm

namespace Grammar

open Relation

variable {g : Grammar}

/-! ## Stages that change nothing -/

/-- A grammar in Chomsky normal form is binary: empty alternatives and single terminals have less
than two symbols, and all others are pairs of variables. -/
lemma binary_of_isNormal (hnormal : g.isNormal = true) : g.Binary := by
  intro v right hr
  cases normalShape_of_isNormal hnormal hr with
  | empty => exact .inl (by simp)
  | letter a => exact .inl (by simp)
  | pair x y => exact .inr ⟨x, y, rfl⟩

/-- **The binarization leaves a grammar in Chomsky normal form as it is**, since it is binary
already. -/
theorem binarize_eq_self (hg : g.WellFormed) (hnormal : g.isNormal = true) (naming : Naming) :
    g.binarize naming = g :=
  (binary_of_isNormal hnormal).binarize_eq_self hg naming

/-! ## Neat grammars -/

/-- **Neat grammars** are in Chomsky normal form, and all of their variables are of use. This is
what a normalization leads to, and what another one starts from. -/
structure Neat (g : Grammar) : Prop where
  /-- They are well formed. -/
  wellFormed : g.WellFormed
  /-- They are in Chomsky normal form. -/
  normal : g.isNormal = true
  /-- All variables are reachable. -/
  reachable : ∀ v ∈ g.nonterminals, v ∈ g.reachable
  /-- All variables are productive. -/
  productive : ∀ v ∈ g.nonterminals, v ∈ g.productive

/-- A normalized grammar is neat, if any word is generated. Otherwise its start symbol is not
productive. -/
lemma neat_normalize (hg : g.WellFormed) (naming : Naming) {w : List Name}
    (hw : g.Generates [.nonterminal g.start] w) : (g.normalize naming).Neat where
  wellFormed := wellFormed_normalize hg naming
  normal := isNormal_normalize hg naming
  reachable v hv := by rwa [reachable_normalize hg naming]
  productive v hv := by rwa [productive_normalize hg naming hw]

/-- **How a stage keeps a grammar neat**: it keeps all alternatives, and each alternative that it
adds is one of some other variable, and an empty one is one of the start symbol. No new shape
appears then, and what was reachable or productive stays so. -/
lemma Neat.of_stage {h : Grammar} (hneat : g.Neat) (hstart : h.start = g.start)
    (hwf : h.WellFormed) (hnonterminals : ∀ v ∈ h.nonterminals, v ∈ g.nonterminals)
    (hgh : ∀ v, ∀ right ∈ g.alternatives v, right ∈ h.alternatives v)
    (hhg : ∀ v, ∀ right ∈ h.alternatives v,
      (∃ u, right ∈ g.alternatives u) ∧ (right ≠ [] ∨ v = g.start)) : h.Neat where
  wellFormed := hwf
  normal := by
    rw [isNormal, List.all_eq_true]
    rintro ⟨v, right⟩ hrule
    obtain ⟨⟨u, hr⟩, hne⟩ := hhg v right (mem_rules.1 hrule)
    cases normalShape_of_isNormal hneat.normal hr with
    | empty => exact decide_eq_true (hstart ▸ hne.resolve_left fun h => h rfl)
    | letter a => rfl
    | pair x y => rfl
  reachable v hv :=
    reachable_mono hstart (fun v _ => hgh v) (hneat.reachable v (hnonterminals v hv))
  productive v hv := by
    obtain ⟨w, hw⟩ := mem_productive.1 (hneat.productive v (hnonterminals v hv))
    exact mem_productive.2 ⟨w, hw.mono hgh⟩

/-! ## Passing -/

/-- **Passing.** A variable passes to another one if this is what is left of a pair when a nullable
variable is left out. So what passing leads to is found by unit steps once empty alternatives have
been eliminated. -/
def Passes (g : Grammar) (v u : Name) : Prop :=
  ∃ x ∈ g.nullable, [.nonterminal u, .nonterminal x] ∈ g.alternatives v ∨
    [.nonterminal x, .nonterminal u] ∈ g.alternatives v

/-- The variants of a pair of variables: the pair itself, each of the two alone if the other one is
optional, and nothing at all if both are. -/
lemma mem_variants_pair {optional : SortedSet Name} {x y : Name} {right : List Symbol} :
    right ∈ variants optional [.nonterminal x, .nonterminal y] ↔
      right = [.nonterminal x, .nonterminal y] ∨ (y ∈ optional ∧ right = [.nonterminal x]) ∨
        (x ∈ optional ∧ right = [.nonterminal y]) ∨ (x ∈ optional ∧ y ∈ optional ∧ right = []) := by
  by_cases hx : x ∈ optional <;> by_cases hy : y ∈ optional <;>
    simp [variants, Symbol.isIn, hx, hy] <;> tauto

namespace Neat

variable (h : g.Neat)

include h

/-- Unit alternatives come from pairs, since a grammar in Chomsky normal form has none itself.

**Proof sketch.** A unit is a variant of some alternative. In Chomsky normal form this must be a
pair, one variable of which is nullable and left out, which is what passing means. -/
lemma unitStep_iff {v u : Name} : g.eliminateEpsilon.UnitStep v u ↔ g.Passes v u := by
  rw [UnitStep, mem_alternatives_eliminateEpsilon, Passes]
  constructor
  · rintro ⟨⟨whole, hwhole, hvariant⟩, -⟩
    cases normalShape_of_isNormal h.normal hwhole with
    | empty => simp [variants] at hvariant
    | letter a => simp [variants, Symbol.isIn] at hvariant
    | pair x y =>
      rcases mem_variants_pair.1 hvariant with heq | ⟨hy, heq⟩ | ⟨hx, heq⟩ | ⟨-, -, heq⟩
      · simp at heq
      · obtain rfl : u = x := by simpa using heq
        exact ⟨y, hy, .inl hwhole⟩
      · obtain rfl : u = y := by simpa using heq
        exact ⟨x, hx, .inr hwhole⟩
      · simp at heq
  · rintro ⟨x, hx, hr | hr⟩
    · exact ⟨⟨_, hr, mem_variants_pair.2 (.inr (.inl ⟨hx, rfl⟩))⟩, .inl (by simp)⟩
    · exact ⟨⟨_, hr, mem_variants_pair.2 (.inr (.inr (.inl ⟨hx, rfl⟩)))⟩, .inl (by simp)⟩

/-- The start symbol has an empty alternative if it is nullable, and no other variable has one. -/
lemma nil_mem_iff {v : Name} :
    [] ∈ g.alternatives v ↔ v = g.start ∧ g.Generates [.nonterminal g.start] [] := by
  rw [generates_nil_iff_of_isNormal h.wellFormed h.normal]
  constructor
  · intro hnil
    obtain rfl := eq_start_of_isNormal h.normal hnil
    exact ⟨rfl, hnil⟩
  · rintro ⟨rfl, hnil⟩
    exact hnil

/-- Apart from unit alternatives, the elimination of empty alternatives changes nothing, and leaves
the empty alternative where it was.

**Proof sketch.** An alternative is a variant of itself, so none is lost. The other way round, a
variant that is not empty comes from a terminal, which has no other variant, or from a pair, of
which all other variants are units or empty. -/
lemma mem_alternatives_eliminateEpsilon_iff {v : Name} {right : List Symbol}
    (hunit : ∀ u, right ≠ [.nonterminal u]) :
    right ∈ g.eliminateEpsilon.alternatives v ↔ right ∈ g.alternatives v := by
  by_cases hnil : right = []
  · subst hnil
    rw [nil_mem_alternatives_eliminateEpsilon h.wellFormed, h.nil_mem_iff]
  · rw [mem_alternatives_eliminateEpsilon]
    constructor
    · rintro ⟨⟨whole, hwhole, hvariant⟩, -⟩
      cases normalShape_of_isNormal h.normal hwhole with
      | empty => exact absurd (List.mem_singleton.1 hvariant) hnil
      | letter a =>
        obtain rfl : right = [.terminal a] := by simpa [variants, Symbol.isIn] using hvariant
        exact hwhole
      | pair x y =>
        rcases mem_variants_pair.1 hvariant with rfl | ⟨-, rfl⟩ | ⟨-, rfl⟩ | ⟨-, -, rfl⟩
        · exact hwhole
        · exact absurd rfl (hunit x)
        · exact absurd rfl (hunit y)
        · exact absurd rfl hnil
    · intro hr
      refine ⟨⟨right, hr, ?_⟩, .inl hnil⟩
      cases normalShape_of_isNormal h.normal hr with
      | empty => exact absurd rfl hnil
      | letter a => simp [variants, Symbol.isIn]
      | pair x y => exact mem_variants_pair.2 (.inl rfl)

/-- No alternative is a single variable, as Chomsky normal form does not admit any. -/
lemma ne_unit {v : Name} {right : List Symbol} (hr : right ∈ g.alternatives v) (u : Name) :
    right ≠ [.nonterminal u] := by
  cases normalShape_of_isNormal h.normal hr <;> simp

/-- **The alternatives after both eliminations** are those of the variables that are passed to,
except that the empty one stays with the start symbol.

**Proof sketch.** The unit steps after the first elimination are passings. So the second one
collects what belongs to the variables that are passed to, and apart from units this is what
belonged to them before. -/
lemma mem_alternatives_eliminate {v : Name} {right : List Symbol} :
    right ∈ g.eliminateEpsilon.eliminateUnits.alternatives v ↔
      ∃ u, ReflTransGen g.Passes v u ∧ right ∈ g.alternatives u ∧ (right ≠ [] ∨ v = g.start) := by
  have hstep : g.eliminateEpsilon.UnitStep = g.Passes := by
    ext v u
    exact h.unitStep_iff
  rw [mem_alternatives_eliminateUnits, hstep]
  constructor
  · rintro ⟨-, u, hu, hr, hinherits⟩
    obtain ⟨hunit, hne⟩ := inherits_iff.1 hinherits
    rw [h.mem_alternatives_eliminateEpsilon_iff hunit] at hr
    refine ⟨u, hu, hr, ?_⟩
    by_cases hnil : right = []
    · subst hnil
      exact hne.imp_right fun hv => hv.resolve_right fun hu => hu (eq_start_of_isNormal h.normal hr)
    · exact .inl hnil
  · rintro ⟨u, hu, hr, hne⟩
    refine ⟨?_, u, hu, (h.mem_alternatives_eliminateEpsilon_iff (h.ne_unit hr)).2 hr,
      inherits_iff.2 ⟨h.ne_unit hr, hne.imp_right .inl⟩⟩
    -- the first variable of the path has an alternative
    have hkey : ∃ right, right ∈ g.alternatives v := by
      rcases hu.cases_head with rfl | ⟨x, ⟨y, -, hpair | hpair⟩, -⟩
      · exact ⟨right, hr⟩
      · exact ⟨_, hpair⟩
      · exact ⟨_, hpair⟩
    obtain ⟨right', hr'⟩ := hkey
    exact h.wellFormed.mem_nonterminals hr'

/-- No alternative is lost, since each variable is among those that it is said to pass to. -/
lemma mem_alternatives_eliminate_of_mem {v : Name} {right : List Symbol}
    (hr : right ∈ g.alternatives v) : right ∈ g.eliminateEpsilon.eliminateUnits.alternatives v := by
  refine h.mem_alternatives_eliminate.2 ⟨v, .refl, hr, ?_⟩
  by_cases hnil : right = []
  · subst hnil
    exact .inr (eq_start_of_isNormal h.normal hr)
  · exact .inl hnil

/-- Both eliminations keep a grammar neat, as they only hand alternatives on. -/
lemma eliminate : g.eliminateEpsilon.eliminateUnits.Neat := by
  refine h.of_stage rfl (wellFormed_eliminateUnits (wellFormed_eliminateEpsilon h.wellFormed))
    (fun _ hv => hv) (fun _ _ => h.mem_alternatives_eliminate_of_mem) fun v right hr => ?_
  obtain ⟨u, -, hr, hne⟩ := h.mem_alternatives_eliminate.1 hr
  exact ⟨⟨u, hr⟩, hne⟩

/-! ## Normalization -/

/-- **A neat grammar is normalized by the two eliminations alone**: no variable is removed, and
none is added. After them the grammar is neat again, so there is nothing to prune and nothing to
make binary. -/
theorem normalize_eq (naming : Naming) :
    g.normalize naming = g.eliminateEpsilon.eliminateUnits := by
  have hneat := h.eliminate
  have hreachable : g.eliminateEpsilon.eliminateUnits.pruneUnreachable =
      g.eliminateEpsilon.eliminateUnits := restrict_eq_self hneat.wellFormed hneat.reachable
  have hproductive : g.eliminateEpsilon.eliminateUnits.pruneUnproductive =
      g.eliminateEpsilon.eliminateUnits := restrict_eq_self hneat.wellFormed hneat.productive
  rw [normalize, hreachable, hproductive, hreachable,
    binarize_eq_self hneat.wellFormed hneat.normal]

/-- **The alternatives after a normalization** are those of the variables that are passed to,
except that the empty one stays with the start symbol. New variables are not drawn, so the naming
does not matter. -/
theorem mem_alternatives_normalize {naming : Naming} {v : Name} {right : List Symbol} :
    right ∈ (g.normalize naming).alternatives v ↔
      ∃ u, ReflTransGen g.Passes v u ∧ right ∈ g.alternatives u ∧ (right ≠ [] ∨ v = g.start) := by
  rw [h.normalize_eq]
  exact h.mem_alternatives_eliminate

/-- The variables stay the same, whatever names new ones would have. -/
lemma nonterminals_normalize (naming : Naming) :
    (g.normalize naming).nonterminals = g.nonterminals := by
  rw [h.normalize_eq]
  rfl

/-- Every variable has an entry, since the elimination of unit alternatives makes one for each. -/
lemma keys_normalize (naming : Naming) :
    (g.normalize naming).productions.keys = g.nonterminals := by
  rw [h.normalize_eq, keys_eliminateUnits]
  rfl

/-- No alternative is lost in a normalization. -/
lemma mem_alternatives_normalize_of_mem (naming : Naming) {v : Name} {right : List Symbol}
    (hr : right ∈ g.alternatives v) : right ∈ (g.normalize naming).alternatives v := by
  rw [h.normalize_eq]
  exact h.mem_alternatives_eliminate_of_mem hr

/-- A normalization keeps a grammar neat, so it can be repeated. -/
lemma normalize (naming : Naming) : (g.normalize naming).Neat := by
  rw [h.normalize_eq]
  exact h.eliminate

/-- **What a variable passes to afterwards**, it passed to before, directly or through others. For
the pair was an alternative of some variable passed to, and what is nullable was nullable before. -/
lemma passes_of_normalize {naming : Naming} {v u : Name} (hpass : (g.normalize naming).Passes v u) :
    ReflTransGen g.Passes v u := by
  obtain ⟨x, hx, hr⟩ := hpass
  have hx : x ∈ g.nullable := by
    rw [mem_nullable, h.normalize_eq] at hx
    exact mem_nullable.2 (generates_of_eliminateEpsilon (generates_of_eliminateUnits hx))
  rcases hr with hr | hr
  · obtain ⟨y, hy, hr, -⟩ := h.mem_alternatives_normalize.1 hr
    exact hy.tail ⟨x, hx, .inl hr⟩
  · obtain ⟨y, hy, hr, -⟩ := h.mem_alternatives_normalize.1 hr
    exact hy.tail ⟨x, hx, .inr hr⟩

/-- **A second normalization changes nothing.**

**Proof sketch.** The variables and the left-hand sides stay the same. What a variable takes over
the second time belongs to a variable that it passes to after the first normalization. That one
has taken it over from a variable that it passed to before. So the variable has taken it over
already. -/
theorem normalize_normalize (naming naming' : Naming) :
    (g.normalize naming).normalize naming' = g.normalize naming := by
  have hneat := h.normalize naming
  refine ext_of_mem (fun v => ?_) ?_ ?_ (fun v => ?_) fun v right => ?_
  · rw [hneat.nonterminals_normalize]
  · rw [terminals_normalize]
  · rw [start_normalize]
  · rw [hneat.keys_normalize, h.keys_normalize, h.nonterminals_normalize]
  · refine ⟨fun hr => ?_, hneat.mem_alternatives_normalize_of_mem naming'⟩
    obtain ⟨u, hu, hr, hne⟩ := hneat.mem_alternatives_normalize.1 hr
    obtain ⟨x, hx, hr, -⟩ := h.mem_alternatives_normalize.1 hr
    have hpath : ReflTransGen g.Passes v u :=
      reflTransGen_closed (fun _ _ => h.passes_of_normalize) _ _ hu
    exact h.mem_alternatives_normalize.2 ⟨x, hpath.trans hx, hr, hne⟩

/-- Nothing is passed in a grammar whose start symbol is detached: no variable is nullable then, or
only a start symbol that occurs nowhere. -/
lemma not_passes (hdetached : g.Detached) (v u : Name) : ¬ g.Passes v u := by
  rintro ⟨x, hx, hr⟩
  have hgen := mem_nullable.1 hx
  rcases hdetached with hnil | hunused
  · exact hnil (nil_mem_of_generates h.wellFormed (fun _ => eq_start_of_isNormal h.normal) hgen rfl
      (by simp) (by simp))
  · have hform : .nonterminal g.start ∉ [Symbol.nonterminal x] := by
      intro hm
      obtain rfl : g.start = x := by simpa using hm
      rcases hr with hr | hr
      · exact hunused v _ hr (by simp)
      · exact hunused v _ hr (by simp)
    exact ne_nil_of_isNormal h.normal
      (generates_withoutEmpty_of_notMem h.normal hunused hgen hform) rfl

/-- **A grammar whose start symbol is detached** is not changed by a normalization. Nothing is
passed, so each variable collects its own alternatives only. -/
theorem normalize_eq_self (hdetached : g.Detached) (naming : Naming) : g.normalize naming = g := by
  refine ext_of_mem (fun v => ?_) (terminals_normalize g naming) (start_normalize g naming)
    (fun v => ?_) fun v right => ⟨fun hr => ?_, h.mem_alternatives_normalize_of_mem naming⟩
  · rw [h.nonterminals_normalize]
  · rw [h.keys_normalize]
    refine ⟨fun hv => ?_, h.wellFormed.left_mem v⟩
    obtain ⟨right, hr⟩ := exists_alternative_of_productive (h.productive v hv)
    exact mem_keys_of_mem_alternatives hr
  · obtain ⟨u, hu, hr, -⟩ := h.mem_alternatives_normalize.1 hr
    rcases hu.cases_head with rfl | ⟨x, hpass, -⟩
    · exact hr
    · exact absurd hpass (h.not_passes hdetached v x)

end Neat

/-! ## Attainable grammars -/

/-- Without words, a normalized grammar is not changed by another normalization: it consists of the
start symbol and has no productions, and so has its normal form. -/
lemma normalize_normalize_of_noWords (hg : g.WellFormed) (naming naming' : Naming)
    (h : ∀ w, ¬ g.Generates [.nonterminal g.start] w) :
    (g.normalize naming).normalize naming' = g.normalize naming := by
  have hwf := wellFormed_normalize hg naming
  have h' : ∀ w, ¬ (g.normalize naming).Generates [.nonterminal (g.normalize naming).start] w := by
    intro w hw
    rw [start_normalize] at hw
    exact h w ((generates_normalize hg naming).1 hw)
  have hproductions := productions_normalize hg naming h
  have hproductions' := productions_normalize hwf naming' h'
  refine ext_of_mem (fun v => ?_) (terminals_normalize _ _) (start_normalize _ _) (fun v => ?_)
    fun v right => ?_
  · rw [nonterminals_normalize hwf naming' h', nonterminals_normalize hg naming h, start_normalize]
  · rw [hproductions, hproductions']
  · simp only [mem_alternatives, hproductions, hproductions']

/-- **The normal form of a normal form.** If an attainable grammar is normalized twice, the second
normalization keeps the variables and all alternatives, and a third one changes nothing. The second
one changes nothing either if the start symbol is not nullable, or occurs in no alternative after
the first one.

**Proof sketch.** If there is a word, the normal form is neat, and what is to be shown is known of
neat grammars: the start symbol is detached under either condition. If there is none, the normal
form has no productions, and normalizing it has no effect at all. -/
theorem Attainable.normalize_stable (h : g.Attainable) (naming naming' naming'' : Naming) :
    ((g.normalize naming).normalize naming').normalize naming'' =
      (g.normalize naming).normalize naming' ∧
    ((g.normalize naming).normalize naming').nonterminals = (g.normalize naming).nonterminals ∧
    (∀ v, ∀ right ∈ (g.normalize naming).alternatives v,
      right ∈ ((g.normalize naming).normalize naming').alternatives v) ∧
    ((g.start ∉ g.nullable ∨ ∀ v, ∀ right ∈ (g.normalize naming).alternatives v,
        .nonterminal (g.normalize naming).start ∉ right) →
      (g.normalize naming).normalize naming' = g.normalize naming) := by
  have hg := h.wellFormed
  by_cases hwords : ∃ w, g.Generates [.nonterminal g.start] w
  · obtain ⟨w, hw⟩ := hwords
    have hneat := neat_normalize hg naming hw
    refine ⟨hneat.normalize_normalize naming' naming'', hneat.nonterminals_normalize naming',
      fun v right => hneat.mem_alternatives_normalize_of_mem naming', fun hstart => ?_⟩
    refine hneat.normalize_eq_self (hstart.imp_left fun hnull hnil => hnull ?_) naming'
    rw [start_normalize] at hnil
    exact mem_nullable.2 ((nil_mem_normalize hg naming).1 hnil)
  · have hsame : ∀ naming', (g.normalize naming).normalize naming' = g.normalize naming :=
      fun naming' => normalize_normalize_of_noWords hg naming naming' (not_exists.1 hwords)
    refine ⟨?_, ?_, fun v right hr => ?_, fun _ => hsame naming'⟩
    · rw [hsame, hsame]
    · rw [hsame]
    · rwa [hsame]

/-- The normal form of the normal form of the grammar of nested pairs. Its start symbol is nullable
and occurs in its own alternative, so the second normalization may well change something. -/
theorem normalize_stable_nested :
    nested.toGrammar.Attainable ∧
      ((nested.toGrammar.normalize {}).normalize {}).normalize {} =
        (nested.toGrammar.normalize {}).normalize {} ∧
      ((nested.toGrammar.normalize {}).normalize {}).nonterminals =
        (nested.toGrammar.normalize {}).nonterminals :=
  ⟨attainable_nested, (Attainable.normalize_stable attainable_nested {} {} {}).1,
    (Attainable.normalize_stable attainable_nested {} {} {}).2.1⟩

end Grammar

end ChomskyForm
