import ChomskyForm.Proofs.EmptyAlternatives
import ChomskyForm.Proofs.Folding
import ChomskyForm.Stage.NormalForm

set_option autoImplicit false
set_option relaxedAutoImplicit false

/-!
# What the binarization changes

The variables of a grammar generate the same words after the binarization, with and without the use
of empty alternatives. Short alternatives stay as they are, so a grammar whose alternatives are
binary apart from their length is in Chomsky normal form afterwards. New variables are of use: if
every variable of the grammar is reachable and productive, so is every new one.

## Main results

* `ChomskyForm.Grammar.wellFormed_binarize`: the binarization keeps a grammar well formed.
* `ChomskyForm.Grammar.generates_binarize`: a variable of the grammar generates the same words as
  before.
* `ChomskyForm.Grammar.Purged.binarize`: a purged grammar stays purged.
* `ChomskyForm.Grammar.isNormal_binarize`: without unit alternatives and with no empty alternative
  but that of the start symbol, it leads to Chomsky normal form.
* `ChomskyForm.Grammar.reachable_binarize`, `ChomskyForm.Grammar.productive_binarize`: new variables
  are reachable and productive.
-/

namespace ChomskyForm

open Relation

namespace Binarization

variable {g : Grammar} {b : Binarization} {f : Name → List Symbol}

/-- A sequence of symbols of the grammar expands to itself, since the expansion of a variable of
the grammar is that variable. -/
lemma Faithful.substitute_self {pending form : List Symbol} (h : Faithful g f pending b)
    (hform : ∀ v, .nonterminal v ∈ form → v ∈ g.nonterminals) : substitute f form = form :=
  substitute_eq_self fun v hv => h.own v (hform v hv)

/-- **The grammar that is built is well formed.** New variables are neither terminals nor the
reserved name, and all symbols of what is built are declared. -/
lemma Faithful.wellFormed (h : Faithful g f [] b) (hg : g.WellFormed) :
    (b.toGrammar g).WellFormed where
  start_mem := SortedSet.mem_union.2 (.inr hg.start_mem)
  disjoint v hv := (SortedSet.mem_union.1 hv).elim (fun hv => (h.named v hv).1) (hg.disjoint v)
  unreserved_nonterminals hv :=
    (SortedSet.mem_union.1 hv).elim (fun hv => (h.named _ hv).2 rfl) hg.unreserved_nonterminals
  unreserved_terminals := hg.unreserved_terminals
  left_mem _ hv := SortedSet.mem_union.2 (.inl hv)
  declares := h.declares

/-- **Soundness.** What is generated from a sequence was generated from its expansion.

**Proof sketch.** It is enough to look at one alternative of one variable. Either the variable is
one of the grammar, and the alternative expands to one of its alternatives, or it is a new one, and
the alternative expands to what the variable does. -/
lemma Faithful.generates_substitute (h : Faithful g f [] b) {form : List Symbol} {w : List Name}
    (hgen : (b.toGrammar g).Generates form w) : g.Generates (substitute f form) w := by
  refine hgen.substitute fun v right hr w hw => ?_
  rcases h.sound v right hr with ⟨hv, hsub⟩ | ⟨-, hsub⟩
  · rw [h.own v hv]
    exact Grammar.generates_nonterminal.2 ⟨_, hsub, hw⟩
  · rwa [← hsub]

/-- **Completeness.** If the rules are covered, then everything that is generated without empty
alternatives still is.

**Proof sketch.** A rule that is covered has an alternative that expands to its right-hand side,
and from that alternative the right-hand side can be derived again without empty alternatives. The
alternative is not empty, since the empty sequence expands to itself. -/
lemma Faithful.generates_withoutEmpty (h : Faithful g f [] b)
    (hcovered : ∀ r : Rule, r.right ∈ g.alternatives r.left → Covered g f b r) {form : List Symbol}
    {w : List Name} (hgen : g.withoutEmpty.Generates form w) :
    (b.toGrammar g).withoutEmpty.Generates form w := by
  refine hgen.translate fun v right hr w hw => ?_
  obtain ⟨hr, hne⟩ := Grammar.mem_alternatives_withoutEmpty.1 hr
  obtain ⟨right', hr', rfl⟩ := hcovered ⟨v, right⟩ hr
  have hne' : right' ≠ [] := fun hnil => hne (by rw [hnil]; rfl)
  refine Grammar.generates_nonterminal.2
    ⟨right', Grammar.mem_alternatives_withoutEmpty.2 ⟨hr', hne'⟩, ?_⟩
  exact (h.derives_substitute (h.declares v right' hr')).generates hw

/-- **Completeness.** If the rules are covered, then everything that is generated still is. This is
the same argument with empty alternatives admitted. -/
lemma Faithful.generates (h : Faithful g f [] b)
    (hcovered : ∀ r : Rule, r.right ∈ g.alternatives r.left → Covered g f b r) {form : List Symbol}
    {w : List Name} (hgen : g.Generates form w) : (b.toGrammar g).Generates form w := by
  refine hgen.translate fun v right hr w hw => ?_
  obtain ⟨right', hr', rfl⟩ := hcovered ⟨v, right⟩ hr
  have hder := (h.derives_substitute (h.declares v right' hr')).of_withoutEmpty
  exact Grammar.generates_nonterminal.2 ⟨right', hr', hder.generates hw⟩

end Binarization

namespace Grammar

open Binarization

variable {g : Grammar} {naming : Naming}

/-! ## Form -/

/-- The start symbol stays the same. -/
@[simp] lemma start_binarize (g : Grammar) (naming : Naming) :
    (g.binarize naming).start = g.start := rfl

/-- The terminals stay the same, those that have been isolated included. -/
@[simp] lemma terminals_binarize (g : Grammar) (naming : Naming) :
    (g.binarize naming).terminals = g.terminals := rfl

/-- **The binarization keeps a grammar well formed**, under any naming of new variables. -/
lemma wellFormed_binarize (hg : g.WellFormed) (naming : Naming) :
    (g.binarize naming).WellFormed := by
  obtain ⟨f, b, hb, hfaithful, -⟩ := exists_faithful hg naming
  rw [hb]
  exact hfaithful.wellFormed hg

/-- **The shape of the alternatives** after the binarization: they are short ones of the grammar,
single terminals and pairs of variables. -/
lemma shape_binarize (hg : g.WellFormed) {v : Name} {right : List Symbol}
    (hr : right ∈ (g.binarize naming).alternatives v) : Shape g v right := by
  obtain ⟨f, b, hb, hfaithful, -⟩ := exists_faithful hg naming
  rw [hb] at hr
  exact hfaithful.shape v right hr

/-- An empty alternative is one of the grammar, since no other shape is empty. -/
lemma nil_mem_of_binarize (hg : g.WellFormed) {v : Name}
    (hr : [] ∈ (g.binarize naming).alternatives v) : [] ∈ g.alternatives v := by
  cases shape_binarize hg hr with
  | short hr _ => exact hr

/-- **Chomsky normal form.** A grammar without unit alternatives, and with no empty alternative but
that of the start symbol, is in Chomsky normal form after the binarization.

**Proof sketch.** By the shape of the alternatives (`shape_binarize`). Single terminals and pairs
of variables are in the form; a short alternative of the grammar is empty, a terminal, or a unit
alternative, which is excluded. -/
theorem isNormal_binarize (hg : g.WellFormed)
    (hunit : ∀ v u, [.nonterminal u] ∉ g.alternatives v)
    (hempty : ∀ v, [] ∈ g.alternatives v → v = g.start) : (g.binarize naming).isNormal = true := by
  rw [isNormal, List.all_eq_true]
  rintro ⟨v, right⟩ hrule
  cases shape_binarize hg (mem_rules.1 hrule) with
  | single a => rfl
  | pair x y => rfl
  | short hr hlen =>
    match right, hr, hlen with
    | [], hr, _ => exact decide_eq_true (hempty v hr)
    | [.terminal a], _, _ => rfl
    | [.nonterminal u], hr, _ => exact absurd hr (hunit v u)
    | [.epsilon], hr, _ => exact absurd List.mem_cons_self (hg.epsilon_notMem hr)

/-! ## The generated words -/

/-- **A variable of the grammar** generates the same words as before.

**Proof sketch.** What is generated afterwards was generated from the expansion, and a variable of
the grammar expands to itself. What was generated before still is, because all rules are covered. -/
theorem generates_binarize (hg : g.WellFormed) {v : Name} (hv : v ∈ g.nonterminals)
    {w : List Name} :
    (g.binarize naming).Generates [.nonterminal v] w ↔ g.Generates [.nonterminal v] w := by
  obtain ⟨f, b, hb, hfaithful, hcovered⟩ := exists_faithful hg naming
  rw [hb]
  refine ⟨fun hgen => ?_, hfaithful.generates hcovered⟩
  have hself : substitute f [.nonterminal v] = [.nonterminal v] :=
    hfaithful.substitute_self fun u hu => by
      obtain rfl : u = v := by simpa using hu
      exact hv
  rw [← hself]
  exact hfaithful.generates_substitute hgen

/-- **A purged grammar stays purged.** Words that are not empty are generated without empty
alternatives as before, and the binarization adds no empty alternative. -/
theorem Purged.binarize (h : g.Purged) (hg : g.WellFormed) (naming : Naming) :
    (g.binarize naming).Purged := by
  obtain ⟨f, b, hb, hfaithful, hcovered⟩ := exists_faithful hg naming
  refine h.of_stage rfl (fun v hv => h.eq_start v (nil_mem_of_binarize hg hv))
    (fun w hgen => (generates_binarize hg hg.start_mem).1 hgen) fun w hgen => ?_
  rw [hb]
  exact hfaithful.generates_withoutEmpty hcovered hgen

/-! ## Useful variables -/

/-- **New variables are reachable** if all variables of the grammar are.

**Proof sketch.** If a variable uses another one in the grammar, it has an alternative from which
that alternative can be derived, so it uses it through new variables. New variables are anchored. -/
theorem reachable_binarize (hg : g.WellFormed) (h : ∀ v ∈ g.nonterminals, v ∈ g.reachable)
    {v : Name} (hv : v ∈ (g.binarize naming).nonterminals) : v ∈ (g.binarize naming).reachable := by
  obtain ⟨f, b, hb, hfaithful, hcovered⟩ := exists_faithful hg naming
  rw [hb] at hv ⊢
  -- what was one use may have become several, through new variables
  have huses : ∀ x y, g.Uses x y → ReflTransGen (b.toGrammar g).Uses x y := by
    rintro x y ⟨right, hr, hy⟩
    obtain ⟨right', hr', rfl⟩ := hcovered ⟨x, right⟩ hr
    have hder := (hfaithful.derives_substitute (hfaithful.declares x right' hr')).of_withoutEmpty
    obtain ⟨u, hu, hpath⟩ := hder.exists_uses hy
    exact hpath.head ⟨right', hr', hu⟩
  have hpaths : ∀ u, ReflTransGen g.Uses g.start u →
      ReflTransGen (b.toGrammar g).Uses g.start u := by
    intro u hpath
    induction hpath with
    | refl => exact .refl
    | tail _ step ih => exact ih.trans (huses _ _ step)
  refine mem_reachable.2 ?_
  rcases SortedSet.mem_union.1 hv with hv | hv
  · obtain ⟨u, hu, hpath⟩ := hfaithful.anchored v hv
    have hu : u ∈ g.nonterminals := hu.resolve_right (by simp)
    exact (hpaths u (mem_reachable.1 (h u hu))).trans hpath
  · exact hpaths v (mem_reachable.1 (h v hv))

/-- **New variables are productive** if all variables of the grammar are.

**Proof sketch.** From a new variable its expansion can be derived. This consists of symbols of the
grammar, so it generates a word. -/
theorem productive_binarize (hg : g.WellFormed) (h : ∀ v ∈ g.nonterminals, v ∈ g.productive)
    {v : Name} (hv : v ∈ (g.binarize naming).nonterminals) :
    v ∈ (g.binarize naming).productive := by
  obtain ⟨f, b, hb, hfaithful, hcovered⟩ := exists_faithful hg naming
  rw [hb] at hv ⊢
  refine mem_productive.2 ?_
  by_cases hold : v ∈ g.nonterminals
  · obtain ⟨w, hw⟩ := mem_productive.1 (h v hold)
    exact ⟨w, hfaithful.generates hcovered hw⟩
  · have hkey : v ∈ b.productions.keys := (SortedSet.mem_union.1 hv).resolve_right hold
    obtain ⟨w, hw⟩ := exists_generates_iff.2 fun u hu => h u (hfaithful.expands v hkey _ hu)
    have hder := (hfaithful.unfolds v hkey hold).of_withoutEmpty
    exact ⟨w, hder.generates (hfaithful.generates hcovered hw)⟩

end Grammar

end ChomskyForm
