import Mathlib.Data.Set.Finite.Basic
import Mathlib.Logic.Equiv.Fintype
import ChomskyForm.Grammar.Renaming
import ChomskyForm.Proofs.Trimming

set_option autoImplicit false
set_option relaxedAutoImplicit false

/-!
# Renaming and trimming

The stages before the binarization do not look at names, other than to tell whether two of them are
the same. So it makes no difference whether a grammar is renamed before these stages or after them,
as long as different names stay different.

For each stage one inclusion suffices. What a stage makes of a grammar is found again, renamed, in
what it makes of the renamed grammar; if this holds for all permutations of names, it holds for the
inverse ones, and the two grammars are the same.

## Main definitions

* `ChomskyForm.Grammar.Included`: one grammar is part of another.
* `ChomskyForm.Grammar.names`: the names of a grammar.

## Main results

* `ChomskyForm.Grammar.Generates.rename`: what is generated is generated after a renaming.
* `ChomskyForm.Grammar.stage_rename`: one inclusion suffices.
* `ChomskyForm.Grammar.trim_rename`: a renaming commutes with the stages before the binarization.
* `ChomskyForm.Grammar.exists_perm_rename`: every injective renaming acts like a permutation.
-/

namespace ChomskyForm

namespace Grammar

open Relation

variable {g h : Grammar} {f t : Name → Name}

/-! ## Inclusion -/

/-- **Inclusion.** The start symbols are the same, and everything else is found again. Left-hand
sides are compared apart from alternatives, since an entry may be empty. -/
structure Included (g h : Grammar) : Prop where
  /-- The variables are found again. -/
  nonterminals : ∀ v ∈ g.nonterminals, v ∈ h.nonterminals
  /-- The terminals are found again. -/
  terminals : ∀ a ∈ g.terminals, a ∈ h.terminals
  /-- The start symbols are the same. -/
  start : g.start = h.start
  /-- The left-hand sides are found again. -/
  keys : ∀ v ∈ g.productions.keys, v ∈ h.productions.keys
  /-- The alternatives are found again. -/
  alternatives : ∀ v, ∀ right ∈ g.alternatives v, right ∈ h.alternatives v

/-- Grammars that are part of each other are the same, by extensionality. -/
lemma Included.antisymm (hgh : Included g h) (hhg : Included h g) : g = h :=
  ext_of_mem (fun v => ⟨hgh.nonterminals v, hhg.nonterminals v⟩)
    (SortedSet.ext fun a => ⟨hgh.terminals a, hhg.terminals a⟩) hgh.start
    (fun v => ⟨hgh.keys v, hhg.keys v⟩)
    fun v right => ⟨hgh.alternatives v right, hhg.alternatives v right⟩

/-- **A part stays a part under any renaming**, injective or not. -/
lemma Included.rename (hgh : Included g h) (f t : Name → Name) :
    Included (g.rename f t) (h.rename f t) where
  nonterminals v hv := by
    obtain ⟨u, hu, rfl⟩ := mem_nonterminals_rename.1 hv
    exact mem_nonterminals_rename.2 ⟨u, hgh.nonterminals u hu, rfl⟩
  terminals a ha := by
    obtain ⟨b, hb, rfl⟩ := mem_terminals_rename.1 ha
    exact mem_terminals_rename.2 ⟨b, hgh.terminals b hb, rfl⟩
  start := congrArg f hgh.start
  keys v hv := by
    obtain ⟨u, hu, rfl⟩ := mem_keys_rename.1 hv
    exact mem_keys_rename.2 ⟨u, hgh.keys u hu, rfl⟩
  alternatives v right hr := by
    obtain ⟨u, rfl, right', hr', rfl⟩ := mem_alternatives_rename.1 hr
    exact mem_alternatives_rename.2 ⟨u, rfl, right', hgh.alternatives u right' hr', rfl⟩

/-- The inverse of a permutation undoes it. -/
@[simp] lemma rename_rename_symm (π : Equiv.Perm Name) (g : Grammar) :
    (g.rename π π).rename π.symm π.symm = g := by
  rw [rename_rename, Equiv.symm_comp_self, rename_id]

/-- A permutation undoes its inverse. -/
@[simp] lemma rename_symm_rename (π : Equiv.Perm Name) (g : Grammar) :
    (g.rename π.symm π.symm).rename π π = g :=
  rename_rename_symm π.symm g

/-- **One inclusion suffices.** If what a stage makes of a grammar is found again, renamed, in what
it makes of the renamed grammar, for all permutations, then a permutation commutes with the stage.

**Proof sketch.** Apply the hypothesis to the inverse permutation and to the renamed grammar, and
rename both sides back: this is the other inclusion. -/
theorem stage_rename {stage : Grammar → Grammar}
    (hstage : ∀ (π : Equiv.Perm Name) (g : Grammar),
      Included ((stage g).rename π π) (stage (g.rename π π)))
    (π : Equiv.Perm Name) (g : Grammar) : stage (g.rename π π) = (stage g).rename π π := by
  have hback := (hstage π.symm (g.rename π π)).rename π π
  rw [rename_symm_rename, rename_rename_symm] at hback
  exact hback.antisymm (hstage π g)

/-! ## The analyses -/

/-- A renamed alternative is an alternative of the renamed variable. -/
lemma mem_alternatives_rename_of_mem {v : Name} {right : List Symbol}
    (hr : right ∈ g.alternatives v) :
    right.map (Symbol.rename f t) ∈ (g.rename f t).alternatives (f v) :=
  mem_alternatives_rename.2 ⟨v, rfl, right, hr, rfl⟩

/-- **What is generated** is generated after a renaming. -/
theorem Generates.rename {form : List Symbol} {w : List Name} (hw : g.Generates form w) :
    (g.rename f t).Generates (form.map (Symbol.rename f t)) (w.map t) := by
  induction hw with
  | nil => exact .nil
  | terminal a _ ih => exact .terminal (t a) ih
  | epsilon _ ih => exact .epsilon ih
  | nonterminal hr _ _ ihu ihw =>
    rw [List.map_append]
    exact .nonterminal (mem_alternatives_rename_of_mem hr) ihu ihw

/-- Nullable variables stay nullable, under any renaming. -/
lemma nullable_rename {v : Name} (hv : v ∈ g.nullable) : f v ∈ (g.rename f t).nullable :=
  mem_nullable.2 (mem_nullable.1 hv).rename

/-- Productive variables stay productive, under any renaming: the word that they generate is
renamed. -/
lemma productive_rename {v : Name} (hv : v ∈ g.productive) : f v ∈ (g.rename f t).productive := by
  obtain ⟨w, hw⟩ := mem_productive.1 hv
  exact mem_productive.2 ⟨w.map t, hw.rename⟩

/-- Reachable variables stay reachable, under any renaming: the path of uses that leads to them is
renamed. -/
lemma reachable_rename {v : Name} (hv : v ∈ g.reachable) : f v ∈ (g.rename f t).reachable := by
  refine mem_reachable.2 ((mem_reachable.1 hv).lift f ?_)
  rintro x y ⟨right, hr, hy⟩
  exact ⟨_, mem_alternatives_rename_of_mem hr, List.mem_map_of_mem hy⟩

/-- Unit steps stay unit steps. -/
lemma unitSteps_rename {v u : Name} (h : ReflTransGen g.UnitStep v u) :
    ReflTransGen (g.rename f t).UnitStep (f v) (f u) :=
  h.lift f fun _ _ hstep => mem_alternatives_rename_of_mem hstep

/-- **The renamed variants of a sequence are variants of the renamed sequence**, if optional
variables stay optional. The same occurrences are left out.

**Proof sketch.** Induction on the sequence: a symbol that is left out is the nonterminal of an
optional variable, and its new name is optional too. -/
lemma map_rename_mem_variants {optional optional' : SortedSet Name}
    (hoptional : ∀ v ∈ optional, f v ∈ optional') {right right' : List Symbol}
    (hr : right' ∈ variants optional right) :
    right'.map (Symbol.rename f t) ∈ variants optional' (right.map (Symbol.rename f t)) := by
  induction right generalizing right' with
  | nil =>
    rw [variants, List.mem_singleton] at hr
    subst hr
    exact List.mem_singleton_self _
  | cons s right ih =>
    rcases mem_variants_cons.1 hr with ⟨hs, htail⟩ | ⟨tail, htail, rfl⟩
    · obtain ⟨v, hv, rfl⟩ := Symbol.isIn_iff.1 hs
      exact mem_variants_cons.2 (.inl ⟨Symbol.isIn_iff.2 ⟨f v, hoptional v hv, rfl⟩, ih htail⟩)
    · exact mem_variants_cons.2 (.inr ⟨_, ih htail, rfl⟩)

/-! ## The stages -/

/-- **The elimination of empty alternatives is found again** after a renaming.

**Proof sketch.** The renamed variant of an alternative is a variant of the renamed alternative,
since nullable variables stay nullable. It is empty only if the variant was, and then the left-hand
side was the start symbol. -/
lemma included_eliminateEpsilon (f t : Name → Name) (g : Grammar) :
    Included (g.eliminateEpsilon.rename f t) (g.rename f t).eliminateEpsilon where
  nonterminals _ hv := hv
  terminals _ ha := ha
  start := rfl
  keys v hv := by simpa [eliminateEpsilon] using hv
  alternatives v right hr := by
    obtain ⟨u, rfl, right', hr', rfl⟩ := mem_alternatives_rename.1 hr
    obtain ⟨⟨whole, hwhole, hvariant⟩, hne⟩ := mem_alternatives_eliminateEpsilon.1 hr'
    refine mem_alternatives_eliminateEpsilon.2 ⟨⟨_, mem_alternatives_rename_of_mem hwhole,
      map_rename_mem_variants (fun _ => nullable_rename) hvariant⟩, ?_⟩
    exact hne.imp (fun hne hnil => hne (List.map_eq_nil_iff.1 hnil)) (congrArg f)

/-- **The elimination of unit alternatives is found again** after an injective renaming.

**Proof sketch.** Unit steps stay unit steps, so an alternative is inherited from the renamed
variable, if it is inherited at all. That it is not a unit is seen from its form; that an empty one
does not come from the start symbol needs the renaming to be injective. -/
lemma included_eliminateUnits (hf : Function.Injective f) (t : Name → Name) (g : Grammar) :
    Included (g.eliminateUnits.rename f t) (g.rename f t).eliminateUnits where
  nonterminals _ hv := hv
  terminals _ ha := ha
  start := rfl
  keys v hv := by simpa [eliminateUnits, unitPairs] using hv
  alternatives v right hr := by
    obtain ⟨x, rfl, right', hr', rfl⟩ := mem_alternatives_rename.1 hr
    obtain ⟨hx, u, hu, hr', hinherits⟩ := mem_alternatives_eliminateUnits.1 hr'
    obtain ⟨hunit, hne⟩ := inherits_iff.1 hinherits
    refine mem_alternatives_eliminateUnits.2 ⟨mem_nonterminals_rename.2 ⟨x, hx, rfl⟩, f u,
      unitSteps_rename hu, mem_alternatives_rename_of_mem hr', inherits_iff.2 ⟨?_, ?_⟩⟩
    · intro y hy
      obtain ⟨s, rfl, hs⟩ := List.map_eq_singleton_iff.1 hy
      obtain ⟨z, rfl, -⟩ := Symbol.rename_eq_nonterminal.1 hs
      exact hunit z rfl
    · -- the start symbol has to be told apart from the variable that the alternative comes from
      exact hne.imp (fun hne hnil => hne (List.map_eq_nil_iff.1 hnil))
        (Or.imp (congrArg f) fun hne heq => hne (hf heq))

/-- **A restriction is found again** after a renaming, if the variables that are kept are kept
under their new names. Both removals of useless variables are restrictions.

**Proof sketch.** Part by part. An alternative is kept if its left-hand side and all of its
variables are, and the variables of a renamed alternative are the renamed variables. -/
lemma included_restrict {keep keep' : SortedSet Name} (hkeep : ∀ v ∈ keep, f v ∈ keep')
    (t : Name → Name) (g : Grammar) :
    Included ((g.restrict keep).rename f t) ((g.rename f t).restrict keep') where
  nonterminals v hv := by
    obtain ⟨u, hu, rfl⟩ := mem_nonterminals_rename.1 hv
    obtain ⟨hu, hkept⟩ := mem_nonterminals_restrict.1 hu
    exact mem_nonterminals_restrict.2 ⟨mem_nonterminals_rename.2 ⟨u, hu, rfl⟩,
      hkept.imp (hkeep u) (congrArg f)⟩
  terminals _ ha := ha
  start := rfl
  keys v hv := by
    obtain ⟨u, hu, rfl⟩ := mem_keys_rename.1 hv
    obtain ⟨hu, hkept⟩ := mem_keys_restrict.1 hu
    exact mem_keys_restrict.2 ⟨mem_keys_rename.2 ⟨u, hu, rfl⟩, hkeep u hkept⟩
  alternatives v right hr := by
    obtain ⟨u, rfl, right', hr', rfl⟩ := mem_alternatives_rename.1 hr
    obtain ⟨hr', hu, hright⟩ := mem_alternatives_restrict.1 hr'
    refine mem_alternatives_restrict.2 ⟨mem_alternatives_rename_of_mem hr', hkeep u hu, ?_⟩
    intro x hx
    obtain ⟨y, hy, rfl⟩ := Symbol.nonterminal_mem_map_rename.1 hx
    exact hkeep y (hright y hy)

/-- The removal of unreachable variables is found again after a renaming. -/
lemma included_pruneUnreachable (f t : Name → Name) (g : Grammar) :
    Included (g.pruneUnreachable.rename f t) (g.rename f t).pruneUnreachable :=
  included_restrict (fun _ => reachable_rename) t g

/-- The removal of unproductive variables is found again after a renaming. -/
lemma included_pruneUnproductive (f t : Name → Name) (g : Grammar) :
    Included (g.pruneUnproductive.rename f t) (g.rename f t).pruneUnproductive :=
  included_restrict (fun _ => productive_rename) t g

/-- **A permutation of names commutes with the stages before the binarization**, since it commutes
with each of them (`stage_rename`). -/
theorem trim_rename (π : Equiv.Perm Name) (g : Grammar) :
    (g.rename π π).trim = g.trim.rename π π := by
  have hepsilon := stage_rename fun π => included_eliminateEpsilon π π
  have hunits := stage_rename fun π => included_eliminateUnits π.injective π
  have hreachable := stage_rename fun π => included_pruneUnreachable π π
  have hproductive := stage_rename fun π => included_pruneUnproductive π π
  simp only [trim, hepsilon, hunits, hreachable, hproductive]

/-! ## Injective renamings -/

/-- **The names of a grammar**: those of its variables and of its terminals. In a well-formed
grammar no other name occurs. -/
def names (g : Grammar) : Set Name := {v | v ∈ g.nonterminals ∨ v ∈ g.terminals}

/-- A grammar has finitely many names. -/
lemma finite_names (g : Grammar) : g.names.Finite :=
  (g.nonterminals.toList ++ g.terminals.toList).finite_toSet.subset
    fun _ hv => List.mem_append.2 hv

/-- **Every injective renaming acts like a permutation of all names.** It need be injective on the
names of the grammar only.

**Proof sketch.** An injective function on a finite set of names can be extended to a permutation.
What a renaming does depends on the names of the grammar only (`rename_congr`), and on these the
two agree. -/
theorem exists_perm_rename (hg : g.WellFormed) {r : Name → Name} (hr : Set.InjOn r g.names) :
    ∃ π : Equiv.Perm Name, (∀ v ∈ g.names, π v = r v) ∧ g.rename r r = g.rename π π := by
  have : Finite g.names := g.finite_names
  obtain ⟨π, hπ⟩ := Equiv.Perm.exists_extending_pair (Subtype.val : g.names → Name)
    (fun v => r v) Subtype.val_injective hr.injective
  have hagree : ∀ v ∈ g.names, π v = r v := fun v hv => hπ ⟨v, hv⟩
  exact ⟨π, hagree, rename_congr hg (fun v hv => (hagree v (.inl hv)).symm)
    fun a ha => (hagree a (.inr ha)).symm⟩

/-- **A permutation of names keeps a grammar well formed** if it gives no name of the grammar the
reserved one.

**Proof sketch.** Condition by condition. That no name becomes both a variable and a terminal holds
because the permutation is injective, and the reserved name is excluded by the hypothesis. -/
lemma WellFormed.rename (hg : g.WellFormed) (π : Equiv.Perm Name)
    (hmark : ∀ v ∈ g.names, π v ≠ epsilonName) : (g.rename π π).WellFormed where
  start_mem := mem_nonterminals_rename.2 ⟨g.start, hg.start_mem, rfl⟩
  disjoint v hv ha := by
    obtain ⟨u, hu, rfl⟩ := mem_nonterminals_rename.1 hv
    obtain ⟨b, hb, heq⟩ := mem_terminals_rename.1 ha
    exact hg.disjoint u hu (π.injective heq ▸ hb)
  unreserved_nonterminals hv := by
    obtain ⟨u, hu, heq⟩ := mem_nonterminals_rename.1 hv
    exact hmark u (.inl hu) heq
  unreserved_terminals ha := by
    obtain ⟨b, hb, heq⟩ := mem_terminals_rename.1 ha
    exact hmark b (.inr hb) heq
  left_mem v hv := by
    obtain ⟨u, hu, rfl⟩ := mem_keys_rename.1 hv
    exact mem_nonterminals_rename.2 ⟨u, hg.left_mem u hu, rfl⟩
  declares v right hr s hs := by
    obtain ⟨u, rfl, right', hr', rfl⟩ := mem_alternatives_rename.1 hr
    obtain ⟨s', hs', rfl⟩ := List.mem_map.1 hs
    have hdeclared := hg.declares u right' hr' s' hs'
    cases s' with
    | terminal a => exact mem_terminals_rename.2 ⟨a, hdeclared, rfl⟩
    | nonterminal x => exact mem_nonterminals_rename.2 ⟨x, hdeclared, rfl⟩
    | epsilon => exact hdeclared

end Grammar

end ChomskyForm
