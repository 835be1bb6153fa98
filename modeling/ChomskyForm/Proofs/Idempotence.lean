import ChomskyForm.Proofs.Arrangement
import ChomskyForm.Proofs.StageOrder

set_option autoImplicit false
set_option relaxedAutoImplicit false

/-!
# The same stage again

A stage that comes twice in a row does nothing the second time: each one leads to a grammar of a
certain form, and leaves grammars of this form as they are. Only the elimination of empty
alternatives needs more than the form of its result, since the start symbol may stay nullable and
occur in other alternatives. There the variables that are nullable afterwards were so before, and a
variant of a variant is a variant.

## Main definitions

* `ChomskyForm.Grammar.Binary`: grammars that a binarization has nothing to do for.

## Main results

* `ChomskyForm.Grammar.eliminateEpsilon_eliminateEpsilon`,
  `ChomskyForm.Grammar.eliminateUnits_eliminateUnits`, `ChomskyForm.Grammar.restrict_restrict`,
  `ChomskyForm.Grammar.Binary.binarize_eq_self`: what a second application of a stage meets.
* `ChomskyForm.Grammar.Attainable.stages_idempotent`: the single stages are idempotent.
-/

namespace ChomskyForm

/-! ## Variants of variants -/

section Variants

variable {optional optional' : SortedSet Name}

/-- Every sequence is a variant of itself, with nothing left out. -/
lemma self_mem_variants (optional : SortedSet Name) (right : List Symbol) :
    right ∈ variants optional right := by
  induction right with
  | nil => exact List.mem_singleton_self _
  | cons s right ih => exact mem_variants_cons.2 (.inr ⟨right, ih, rfl⟩)

/-- **A variant of a variant is a variant**, if what is left out the second time could have been
left out the first time.

**Proof sketch.** Induction on the whole sequence. Its first symbol is left out at once, or kept
and left out afterwards, or kept both times; the rest is a variant of a variant of the rest. -/
lemma mem_variants_trans (hsub : ∀ v ∈ optional', v ∈ optional) {whole right part : List Symbol}
    (hright : right ∈ variants optional whole) (hpart : part ∈ variants optional' right) :
    part ∈ variants optional whole := by
  induction whole generalizing right part with
  | nil =>
    obtain rfl : right = [] := List.mem_singleton.1 hright
    exact hpart
  | cons s whole ih =>
    rcases mem_variants_cons.1 hright with ⟨hs, hright⟩ | ⟨tail, htail, rfl⟩
    · exact mem_variants_cons.2 (.inl ⟨hs, ih hright hpart⟩)
    · rcases mem_variants_cons.1 hpart with ⟨hs, htail'⟩ | ⟨tail', htail', rfl⟩
      · obtain ⟨v, hv, rfl⟩ := Symbol.isIn_iff.1 hs
        exact mem_variants_cons.2
          (.inl ⟨Symbol.isIn_iff.2 ⟨v, hsub v hv, rfl⟩, ih htail htail'⟩)
      · exact mem_variants_cons.2 (.inr ⟨tail', ih htail htail', rfl⟩)

end Variants

namespace Grammar

variable {g : Grammar}

/-! ## Empty alternatives -/

/-- The elimination of empty alternatives keeps the entries. -/
@[simp] lemma keys_eliminateEpsilon (g : Grammar) :
    g.eliminateEpsilon.productions.keys = g.productions.keys := by
  simp [eliminateEpsilon]

/-- The elimination of empty alternatives makes no variable nullable, since it adds no words. -/
lemma nullable_of_eliminateEpsilon {v : Name} (hv : v ∈ g.eliminateEpsilon.nullable) :
    v ∈ g.nullable :=
  mem_nullable.2 (generates_of_eliminateEpsilon (mem_nullable.1 hv))

/-- **The elimination of empty alternatives is idempotent**, also where the start symbol stays
nullable and occurs in other alternatives.

**Proof sketch.** What is nullable afterwards was nullable before, so a variant of an alternative
afterwards is a variant of one before (`mem_variants_trans`). Conversely, each alternative is a
variant of itself. -/
theorem eliminateEpsilon_eliminateEpsilon (g : Grammar) :
    g.eliminateEpsilon.eliminateEpsilon = g.eliminateEpsilon := by
  refine ext_of_mem (fun _ => .rfl) rfl rfl (fun v => ?_) fun v right => ?_
  · rw [keys_eliminateEpsilon]
  · rw [mem_alternatives_eliminateEpsilon]
    constructor
    · rintro ⟨⟨middle, hmiddle, hright⟩, hne⟩
      obtain ⟨⟨whole, hwhole, hmiddle⟩, -⟩ := mem_alternatives_eliminateEpsilon.1 hmiddle
      have hvariant := mem_variants_trans (fun _ => nullable_of_eliminateEpsilon) hmiddle hright
      exact mem_alternatives_eliminateEpsilon.2 ⟨⟨whole, hwhole, hvariant⟩, hne⟩
    · intro hr
      exact ⟨⟨right, hr, self_mem_variants _ right⟩, (mem_alternatives_eliminateEpsilon.1 hr).2⟩

/-! ## Unit alternatives -/

/-- After the elimination of unit alternatives the variables are what has an entry. -/
@[simp] lemma keys_eliminateUnits (g : Grammar) :
    g.eliminateUnits.productions.keys = g.nonterminals := by
  simp [eliminateUnits, unitPairs]

/-- No unit alternative is left, since none is inherited. -/
lemma not_unitStep_eliminateUnits (v u : Name) : ¬ g.eliminateUnits.UnitStep v u := by
  intro hstep
  obtain ⟨-, x, -, -, hinherits⟩ := mem_alternatives_eliminateUnits.1 hstep
  exact (inherits_iff.1 hinherits).1 u rfl

/-- **A grammar without unit alternatives**, in which every variable has an entry and nothing else
has one, is left as it is.

**Proof sketch.** Without unit steps a variable leads to itself only, so it inherits from itself,
and all of its alternatives: none is a unit, and an empty one is its own. -/
lemma eliminateUnits_eq_self (hunit : ∀ v u, ¬ g.UnitStep v u)
    (hkeys : g.productions.keys = g.nonterminals) : g.eliminateUnits = g := by
  refine ext_of_mem (fun _ => .rfl) rfl rfl (fun v => ?_) fun v right => ?_
  · rw [keys_eliminateUnits, hkeys]
  · rw [mem_alternatives_eliminateUnits]
    constructor
    · rintro ⟨-, u, hpath, hr, -⟩
      rcases hpath.cases_head with rfl | ⟨x, hstep, -⟩
      · exact hr
      · exact absurd hstep (hunit v x)
    · intro hr
      have hv : v ∈ g.nonterminals := hkeys ▸ mem_keys_of_mem_alternatives hr
      have hne : ∀ x, right ≠ [.nonterminal x] := by
        rintro x rfl
        exact hunit v x hr
      -- what was the variable's own stays its own, the empty alternative of the start symbol too
      exact ⟨hv, v, .refl, hr, inherits_iff.2 ⟨hne, .inr (em (v = g.start))⟩⟩

/-- **The elimination of unit alternatives is idempotent.** -/
theorem eliminateUnits_eliminateUnits (g : Grammar) :
    g.eliminateUnits.eliminateUnits = g.eliminateUnits :=
  eliminateUnits_eq_self not_unitStep_eliminateUnits (keys_eliminateUnits g)

/-! ## Useless variables -/

/-- **A second restriction changes nothing** if it keeps all variables that the first one keeps as
members of its set. A start symbol that was kept without being a member may be missing.

**Proof sketch.** Part by part: what the first restriction has left satisfies the condition of the
second one. -/
theorem restrict_restrict (hg : g.WellFormed) {keep keep' : SortedSet Name}
    (hkeep : ∀ v ∈ g.nonterminals, v ∈ keep → v ∈ keep') :
    (g.restrict keep).restrict keep' = g.restrict keep := by
  refine ext_of_mem (fun v => ?_) rfl rfl (fun v => ?_) fun v right => ?_
  · rw [mem_nonterminals_restrict, mem_nonterminals_restrict]
    exact and_iff_left_of_imp fun ⟨hv, hor⟩ => hor.imp_left (hkeep v hv)
  · rw [mem_keys_restrict, mem_keys_restrict]
    exact and_iff_left_of_imp fun ⟨hkey, hv⟩ => hkeep v (hg.left_mem v hkey) hv
  · rw [mem_alternatives_restrict, mem_alternatives_restrict]
    refine and_iff_left_of_imp fun ⟨hr, hv, hright⟩ => ⟨hkeep v (hg.mem_nonterminals hr) hv, ?_⟩
    exact fun u hu => hkeep u (hg.declares v right hr _ hu) (hright u hu)

/-- **The removal of unreachable variables is idempotent**: reachable variables stay reachable. -/
theorem pruneUnreachable_pruneUnreachable (hg : g.WellFormed) :
    g.pruneUnreachable.pruneUnreachable = g.pruneUnreachable :=
  restrict_restrict hg fun _ hv hreachable =>
    reachable_pruneUnreachable (mem_nonterminals_restrict.2 ⟨hv, .inl hreachable⟩)

/-- **The removal of unproductive variables is idempotent**, also where the start symbol is one. -/
theorem pruneUnproductive_pruneUnproductive (hg : g.WellFormed) :
    g.pruneUnproductive.pruneUnproductive = g.pruneUnproductive :=
  restrict_restrict hg fun _ _ => productive_pruneUnproductive_of_productive

/-! ## Binary alternatives -/

/-- **Binary grammars**: every alternative of two or more symbols is a pair of variables. -/
def Binary (g : Grammar) : Prop :=
  ∀ v, ∀ right ∈ g.alternatives v,
    right.length < 2 ∨ ∃ x y, right = [.nonterminal x, .nonterminal y]

/-- **A binarization leads to a binary grammar**, by the shapes of its alternatives. -/
theorem binary_binarize (hg : g.WellFormed) (naming : Naming) : (g.binarize naming).Binary := by
  intro v right hr
  cases shape_binarize hg hr with
  | short _ hlength => exact .inl hlength
  | single a => exact .inl (by simp)
  | pair x y => exact .inr ⟨x, y, rfl⟩

namespace Binary

variable (h : g.Binary)

include h

/-- A binary grammar calls for no new variables: a pair of variables has no terminal in it, and no
symbol in excess of two. -/
lemma not_calls (ρ : Role) : ¬ g.Calls ρ := by
  rintro ⟨⟨v, right⟩, hr, hlong, hρ⟩
  rcases h v right hr with hshort | ⟨x, y, rfl⟩
  · exact absurd hlong (Nat.not_le.2 hshort)
  · cases ρ <;> simp [Rule.CallsBelow] at hρ

/-- Its right-hand sides have their binary form already. -/
lemma binary_eq (ν : Role → Name) {r : Rule} (hr : r.right ∈ g.alternatives r.left) :
    r.binary ν = r.right := by
  obtain ⟨v, right⟩ := r
  rcases h v right hr with hshort | ⟨x, y, rfl⟩
  · exact if_pos hshort
  · rfl

/-- **A binary grammar is left as it is**, whatever the naming of new variables.

**Proof sketch.** The binary form of a grammar is given by the roles that it calls for
(`exists_arrangement`). Here there are none, so no variable is new, and every rule is its own
binary form. -/
theorem binarize_eq_self (hg : g.WellFormed) (naming : Naming) : g.binarize naming = g := by
  obtain ⟨ν, harr⟩ := exists_arrangement hg naming
  refine ext_of_mem (fun v => ?_) harr.terminals harr.start (fun v => ?_) fun v right => ?_
  · simp [harr.nonterminals, h.not_calls]
  · simp [harr.keys, h.not_calls]
  · simp only [harr.alternatives, h.not_calls, false_and, exists_false, or_false]
    constructor
    · rintro ⟨r, hr, rfl, rfl⟩
      rwa [h.binary_eq ν hr]
    · exact fun hr => ⟨⟨v, right⟩, hr, rfl, h.binary_eq ν (r := ⟨v, right⟩) hr⟩

end Binary

/-! ## Attainable grammars -/

/-- **The single stages are idempotent.** Applied to an attainable grammar twice in a row, a stage
leads to the same grammar as applied once; a second binarization may use another naming of new
variables than the first one. Grammars are compared as they are, entries without alternatives
included. -/
theorem Attainable.stages_idempotent (h : g.Attainable) (naming naming' : Naming) :
    g.eliminateEpsilon.eliminateEpsilon = g.eliminateEpsilon ∧
    g.eliminateUnits.eliminateUnits = g.eliminateUnits ∧
    g.pruneUnreachable.pruneUnreachable = g.pruneUnreachable ∧
    g.pruneUnproductive.pruneUnproductive = g.pruneUnproductive ∧
    (g.binarize naming).binarize naming' = g.binarize naming := by
  have hg := h.wellFormed
  exact ⟨eliminateEpsilon_eliminateEpsilon g, eliminateUnits_eliminateUnits g,
    pruneUnreachable_pruneUnreachable hg, pruneUnproductive_pruneUnproductive hg,
    (binary_binarize hg naming).binarize_eq_self (wellFormed_binarize hg naming) naming'⟩

/-- The stages on the grammar of nested pairs, where the start symbol stays nullable and occurs in
another alternative, and where the second binarization uses the stems the other way round. -/
theorem stages_idempotent_nested :
    nested.toGrammar.Attainable ∧
      nested.toGrammar.eliminateEpsilon.eliminateEpsilon = nested.toGrammar.eliminateEpsilon ∧
      (nested.toGrammar.binarize {}).binarize ⟨"X", "T", 0⟩ = nested.toGrammar.binarize {} :=
  ⟨attainable_nested, (Attainable.stages_idempotent attainable_nested {} {}).1,
    (Attainable.stages_idempotent attainable_nested {} ⟨"X", "T", 0⟩).2.2.2.2⟩

end Grammar

end ChomskyForm
