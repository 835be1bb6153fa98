import Mathlib.Logic.Function.Basic
import ChomskyForm.Proofs.Analyses
import ChomskyForm.Proofs.Freshness
import ChomskyForm.Stage.Binary

set_option autoImplicit false
set_option relaxedAutoImplicit false

/-!
# What the new variables of a binarization stand for

Each new variable stands for a sequence of symbols of the grammar, its expansion: a terminal, or
the part of an alternative that has been folded into it. The state of a binarization is faithful
when every alternative built so far expands to an alternative of the grammar, or to the expansion
of the new variable that it belongs to. All steps of a binarization keep it faithful, and since a
name that is drawn was not in use, they change nothing of what has been built before.

## Main definitions

* `ChomskyForm.Binarization.toGrammar`: the grammar that has been built so far.
* `ChomskyForm.Binarization.Faithful`: the invariant of a binarization.
* `ChomskyForm.Binarization.Grows`: what a step leaves as it is.

## Main results

* `ChomskyForm.Binarization.Faithful.derives_substitute`: from a sequence its expansion can be
  derived.
* `ChomskyForm.Binarization.Faithful.introduce`: a new variable keeps the state faithful.
-/

namespace ChomskyForm

namespace Binarization

open Relation

variable {g : Grammar} {b b' : Binarization} {f f' : Name → List Symbol} {pending : List Symbol}

/-! ## The grammar built so far -/

/-- **The grammar built so far**, out of a grammar that is being binarized. In the end it is the
result of the binarization. -/
def toGrammar (b : Binarization) (g : Grammar) : Grammar :=
  { g with nonterminals := b.productions.keys.union g.nonterminals, productions := b.productions }

/-- **A new variable** of a stem, with its alternative. Both the isolation of a terminal and the
folding of a pair do this. -/
def introduce (b : Binarization) (stem : Name) (right : List Symbol) : Binarization :=
  (b.fresh stem).2.add (b.fresh stem).1 right

/-- The left-hand sides after an entry has been given. -/
@[simp] lemma mem_keys_declare {left v : Name} :
    v ∈ (b.declare left).productions.keys ↔ v = left ∨ v ∈ b.productions.keys := by
  simp only [declare, SortedMap.mem_keys_iff_isSome, SortedMap.get?_update]
  by_cases h : v = left <;> simp [h]

/-- The left-hand sides after an alternative has been added. -/
@[simp] lemma mem_keys_add {left v : Name} {right : List Symbol} :
    v ∈ (b.add left right).productions.keys ↔ v = left ∨ v ∈ b.productions.keys := by
  simp only [add, SortedMap.mem_keys_iff_isSome, SortedMap.get?_update]
  by_cases h : v = left <;> simp [h]

/-- To give an entry adds no alternative. -/
@[simp] lemma mem_alternatives_declare {left v : Name} {right : List Symbol} :
    right ∈ ((b.declare left).toGrammar g).alternatives v ↔
      right ∈ (b.toGrammar g).alternatives v := by
  simp only [Grammar.alternatives, toGrammar, declare, SortedMap.get?_update]
  by_cases h : v = left <;> simp [h]

/-- The alternatives after one has been added are it and the old ones. -/
@[simp] lemma mem_alternatives_add {left v : Name} {right right' : List Symbol} :
    right' ∈ ((b.add left right).toGrammar g).alternatives v ↔
      right' ∈ (b.toGrammar g).alternatives v ∨ v = left ∧ right' = right := by
  simp only [Grammar.alternatives, toGrammar, add, SortedMap.get?_update]
  by_cases h : v = left
  · simp [h, or_comm]
  · simp [h]

/-- The left-hand sides after a new variable has been made are it and the old ones. -/
@[simp] lemma mem_keys_introduce {stem v : Name} {right : List Symbol} :
    v ∈ (b.introduce stem right).productions.keys ↔
      v = (b.fresh stem).1 ∨ v ∈ b.productions.keys :=
  mem_keys_add

/-- The alternatives after a new variable has been made are the old ones and its own. -/
@[simp] lemma mem_alternatives_introduce {stem v : Name} {right right' : List Symbol} :
    right' ∈ ((b.introduce stem right).toGrammar g).alternatives v ↔
      right' ∈ (b.toGrammar g).alternatives v ∨ v = (b.fresh stem).1 ∧ right' = right :=
  mem_alternatives_add

/-- The names in use after a new variable has been made are its name and those in use before. -/
@[simp] lemma mem_used_introduce {stem v : Name} {right : List Symbol} :
    v ∈ (b.introduce stem right).names.used ↔ v = (b.fresh stem).1 ∨ v ∈ b.names.used :=
  FreshNames.mem_used_fresh _ _

/-- A variable is declared in the grammar built so far if it is an old one or a left-hand side. -/
lemma declares_nonterminal {v : Name} :
    (b.toGrammar g).Declares (.nonterminal v) ↔ v ∈ b.productions.keys ∨ v ∈ g.nonterminals :=
  SortedSet.mem_union

/-! ## Growth -/

/-- **Growth.** A step removes nothing, and does not change what a used name stands for. -/
structure Grows (g : Grammar) (f : Name → List Symbol) (b : Binarization)
    (f' : Name → List Symbol) (b' : Binarization) : Prop where
  /-- No alternative is removed. -/
  alternatives : ∀ v, ∀ right ∈ (b.toGrammar g).alternatives v,
    right ∈ (b'.toGrammar g).alternatives v
  /-- No left-hand side is removed. -/
  keys : ∀ v ∈ b.productions.keys, v ∈ b'.productions.keys
  /-- Used names stay in use. -/
  used : ∀ v ∈ b.names.used, v ∈ b'.names.used
  /-- Used names stand for the same as before. -/
  agree : ∀ v ∈ b.names.used, f' v = f v

/-- Where nothing is done, nothing is removed. -/
lemma Grows.refl (g : Grammar) (f : Name → List Symbol) (b : Binarization) : Grows g f b f b :=
  ⟨fun _ _ h => h, fun _ h => h, fun _ h => h, fun _ _ => rfl⟩

/-- Two steps in a row remove nothing if neither of them does. Names that stand for the same after
the first step were in use after it, so they do after the second. -/
lemma Grows.trans {f'' : Name → List Symbol} {b'' : Binarization} (h : Grows g f b f' b')
    (h' : Grows g f' b' f'' b'') : Grows g f b f'' b'' where
  alternatives v right hr := h'.alternatives v right (h.alternatives v right hr)
  keys v hv := h'.keys v (h.keys v hv)
  used v hv := h'.used v (h.used v hv)
  agree v hv := (h'.agree v (h.used v hv)).trans (h.agree v hv)

/-- Declared symbols stay declared, terminals because they are those of the grammar. -/
lemma Grows.declares (h : Grows g f b f' b') {s : Symbol} (hs : (b.toGrammar g).Declares s) :
    (b'.toGrammar g).Declares s := by
  cases s with
  | terminal a => exact hs
  | nonterminal v => exact declares_nonterminal.2 ((declares_nonterminal.1 hs).imp_left (h.keys v))
  | epsilon => exact hs

/-- What can be derived without empty alternatives can still be derived, by the same
alternatives. -/
lemma Grows.derives (h : Grows g f b f' b') {form form' : List Symbol}
    (hder : (b.toGrammar g).withoutEmpty.Derives form form') :
    (b'.toGrammar g).withoutEmpty.Derives form form' := by
  refine hder.mono fun v right hr => ?_
  obtain ⟨hr, hne⟩ := Grammar.mem_alternatives_withoutEmpty.1 hr
  exact Grammar.mem_alternatives_withoutEmpty.2 ⟨h.alternatives v right hr, hne⟩

/-! ## The invariant -/

/-- **Anchored variables** are used, directly or through others, by a variable of the grammar or by
one that is still pending. It is how new variables turn out to be reachable. -/
def Anchored (g : Grammar) (pending : List Symbol) (b : Binarization) (v : Name) : Prop :=
  ∃ u, (u ∈ g.nonterminals ∨ .nonterminal u ∈ pending) ∧ ReflTransGen (b.toGrammar g).Uses u v

/-- **Shapes** of the alternatives of a binarization: an alternative of the grammar that was short
enough, or a single terminal, or a pair of variables. -/
inductive Shape (g : Grammar) (v : Name) : List Symbol → Prop where
  /-- An alternative of the grammar with less than two symbols. -/
  | short {right : List Symbol} (hr : right ∈ g.alternatives v) (h : right.length < 2) :
      Shape g v right
  /-- A terminal, which is what a new variable stands for. -/
  | single (a : Name) : Shape g v [.terminal a]
  /-- A pair of variables, new ones or not. -/
  | pair (x y : Name) : Shape g v [.nonterminal x, .nonterminal y]

/-- **Faithful states.** The new variables stand for their expansions, given by `f`. The variables
of the sequence `pending` need not be used by an alternative yet: they are what is left of the
right-hand side that is being worked on. -/
structure Faithful (g : Grammar) (f : Name → List Symbol) (pending : List Symbol)
    (b : Binarization) : Prop where
  /-- All names of the grammar and all left-hand sides are in use. -/
  used : ∀ v, v ∈ g.nonterminals ∨ v ∈ g.terminals ∨ v ∈ b.productions.keys → v ∈ b.names.used
  /-- No left-hand side is a terminal or the reserved name. -/
  named : ∀ v ∈ b.productions.keys, v ∉ g.terminals ∧ v ≠ epsilonName
  /-- A variable of the grammar stands for itself. -/
  own : ∀ v ∈ g.nonterminals, f v = [.nonterminal v]
  /-- The symbols of all alternatives are declared. -/
  declares : ∀ v, ∀ right ∈ (b.toGrammar g).alternatives v, ∀ s ∈ right, (b.toGrammar g).Declares s
  /-- An alternative expands to an alternative of the grammar, or to what a new variable stands
  for. -/
  sound : ∀ v, ∀ right ∈ (b.toGrammar g).alternatives v,
    v ∈ g.nonterminals ∧ substitute f right ∈ g.alternatives v ∨
      v ∉ g.nonterminals ∧ substitute f right = f v
  /-- From a new variable its expansion can be derived. -/
  unfolds : ∀ v ∈ b.productions.keys, v ∉ g.nonterminals →
    (b.toGrammar g).withoutEmpty.Derives [.nonterminal v] (f v)
  /-- An expansion consists of symbols of the grammar. -/
  expands : ∀ v ∈ b.productions.keys, ∀ s ∈ f v, g.Declares s
  /-- The alternatives are binary. -/
  shape : ∀ v, ∀ right ∈ (b.toGrammar g).alternatives v, Shape g v right
  /-- The variable that was made for a terminal stands for it. -/
  isolated : ∀ a v, b.isolated.get? a = some v → v ∈ b.productions.keys ∧ f v = [.terminal a]
  /-- Every variable is anchored. -/
  anchored : ∀ v ∈ b.productions.keys, Anchored g pending b v

/-- **A variable that is used by a pending one is as good as pending.** What is pending may so be
replaced by what uses it. -/
lemma Anchored.trans {pending' : List Symbol} {v : Name} (h : Anchored g pending b v)
    (hpending : ∀ u, .nonterminal u ∈ pending → Anchored g pending' b u) :
    Anchored g pending' b v := by
  obtain ⟨u, hu | hu, hpath⟩ := h
  · exact ⟨u, .inl hu, hpath⟩
  · obtain ⟨x, hx, hpath'⟩ := hpending u hu
    exact ⟨x, hx, hpath'.trans hpath⟩

/-- Anchored variables stay anchored, since no alternative is removed. -/
lemma Anchored.grow {v : Name} (h : Anchored g pending b v) (hgrow : Grows g f b f' b') :
    Anchored g pending b' v := by
  obtain ⟨u, hu, hpath⟩ := h
  refine ⟨u, hu, ReflTransGen.mono ?_ _ _ hpath⟩
  rintro x y ⟨right, hr, hy⟩
  exact ⟨right, hgrow.alternatives x right hr, hy⟩

/-- The pending sequence may be replaced when its variables are anchored otherwise. No other
condition speaks of it. -/
lemma Faithful.replacePending (h : Faithful g f pending b) {pending' : List Symbol}
    (hpending : ∀ u, .nonterminal u ∈ pending → Anchored g pending' b u) :
    Faithful g f pending' b :=
  { h with anchored := fun v hv => (h.anchored v hv).trans hpending }

/-- A declared variable is in use. -/
lemma Faithful.mem_used (h : Faithful g f pending b) {v : Name}
    (hv : (b.toGrammar g).Declares (.nonterminal v)) : v ∈ b.names.used :=
  h.used v ((declares_nonterminal.1 hv).elim (fun hv => .inr (.inr hv)) .inl)

/-- A sequence of declared symbols keeps its expansion, since its variables are in use. -/
lemma Faithful.substitute_eq (h : Faithful g f pending b) (hgrow : Grows g f b f' b')
    {form : List Symbol} (hform : ∀ s ∈ form, (b.toGrammar g).Declares s) :
    substitute f' form = substitute f form :=
  substitute_congr fun v hv => hgrow.agree v (h.mem_used (hform _ hv))

/-- **The expansion of declared symbols consists of symbols of the grammar.**

**Proof sketch.** Symbol by symbol: a terminal is its own expansion, a variable of the grammar too,
and for a new variable it is a condition of the state. -/
lemma Faithful.declares_substitute (h : Faithful g f pending b) {form : List Symbol}
    (hform : ∀ s ∈ form, (b.toGrammar g).Declares s) : ∀ s ∈ substitute f form, g.Declares s := by
  intro s hs
  obtain ⟨t, ht, hs⟩ := List.mem_flatMap.1 hs
  have hdeclared := hform t ht
  cases t with
  | terminal a =>
    obtain rfl := List.mem_singleton.1 hs
    exact hdeclared
  | nonterminal v =>
    rcases declares_nonterminal.1 hdeclared with hv | hv
    · exact h.expands v hv s hs
    · rw [Symbol.substitute_nonterminal, h.own v hv, List.mem_singleton] at hs
      subst hs
      exact hv
  | epsilon => exact absurd hdeclared id

/-- **Unfolding.** From a sequence of declared symbols its expansion can be derived, without empty
alternatives.

**Proof sketch.** Induction on the sequence. The first symbol is its own expansion or a new
variable, from which its expansion can be derived by a condition of the state; the rest is unfolded
behind it. -/
theorem Faithful.derives_substitute (h : Faithful g f pending b) {form : List Symbol}
    (hform : ∀ s ∈ form, (b.toGrammar g).Declares s) :
    (b.toGrammar g).withoutEmpty.Derives form (substitute f form) := by
  induction form with
  | nil => exact .refl _
  | cons s form ih =>
    have hs : (b.toGrammar g).withoutEmpty.Derives [s] (s.substitute f) := by
      cases s with
      | terminal a => exact .refl _
      | epsilon => exact .refl _
      | nonterminal v =>
        rw [Symbol.substitute_nonterminal]
        by_cases hv : v ∈ g.nonterminals
        · rw [h.own v hv]
          exact .refl _
        · have hkey := (declares_nonterminal.1 (hform _ List.mem_cons_self)).resolve_right hv
          exact h.unfolds v hkey hv
    have hfirst := hs.context [] form
    have hrest := (ih fun t ht => hform t (List.mem_cons_of_mem _ ht)).context (s.substitute f) []
    simp only [List.nil_append, List.append_nil] at hfirst hrest
    rw [substitute_cons]
    exact hfirst.trans hrest

/-! ## New variables -/

/-- **A new variable takes nothing away**, whatever it stands for: its name was not in use. -/
lemma grows_introduce (g : Grammar) (f : Name → List Symbol) (b : Binarization) (stem : Name)
    (right form : List Symbol) :
    Grows g f b (Function.update f (b.fresh stem).1 form) (b.introduce stem right) where
  alternatives _ _ hr := mem_alternatives_introduce.2 (.inl hr)
  keys _ hv := mem_keys_introduce.2 (.inr hv)
  used _ hv := mem_used_introduce.2 (.inr hv)
  agree v hv := by
    have hne : v ≠ (b.fresh stem).1 := by
      rintro rfl
      exact b.names.fresh_notMem stem hv
    exact Function.update_of_ne hne _ _

/-- From a new variable the expansion of its alternative can be derived: first the alternative,
then its symbols are unfolded. -/
lemma Faithful.derives_introduce (h : Faithful g f pending b) (stem : Name) {right : List Symbol}
    (hright : ∀ s ∈ right, (b.toGrammar g).Declares s) (hne : right ≠ []) :
    ((b.introduce stem right).toGrammar g).withoutEmpty.Derives [.nonterminal (b.fresh stem).1]
      (substitute f right) := by
  have halt : right ∈
      ((b.introduce stem right).toGrammar g).withoutEmpty.alternatives (b.fresh stem).1 :=
    Grammar.mem_alternatives_withoutEmpty.2 ⟨mem_alternatives_introduce.2 (.inr ⟨rfl, rfl⟩), hne⟩
  have hstep := Grammar.Step.replace [] [] halt
  simp only [List.nil_append, List.append_nil] at hstep
  exact .head hstep ((grows_introduce g f b stem right []).derives (h.derives_substitute hright))

/-- **A new variable keeps the state faithful**: it stands for the expansion of its alternative,
and is pending.

**Proof sketch.** The name that is drawn is not in use. So it occurs nowhere in what has been built
so far, and a change of what it stands for has no effect there. Each condition is then checked
apart for the new variable, where it holds by the choice of its expansion, and for the old ones. -/
theorem Faithful.introduce (h : Faithful g f pending b) (stem : Name) (right : List Symbol)
    (hright : ∀ s ∈ right, (b.toGrammar g).Declares s) (hne : right ≠ [])
    (hshape : Shape g (b.fresh stem).1 right) :
    ∃ f', Faithful g f' (.nonterminal (b.fresh stem).1 :: pending) (b.introduce stem right) ∧
      Grows g f b f' (b.introduce stem right) ∧ f' (b.fresh stem).1 = substitute f right := by
  set x := (b.fresh stem).1 with hx
  have hnew : x ∉ b.names.used := b.names.fresh_notMem stem
  set f' := Function.update f x (substitute f right) with hf'
  have hself : f' x = substitute f right := Function.update_self _ _ _
  have hgrow : Grows g f b f' (b.introduce stem right) := grows_introduce g f b stem right _
  have hkeys : ∀ v ∈ b.productions.keys, f' v = f v :=
    fun v hv => hgrow.agree v (h.used v (.inr (.inr hv)))
  have hold : x ∉ g.nonterminals := fun hm => hnew (h.used x (.inl hm))
  refine ⟨f', ?_, hgrow, hself⟩
  exact
    { used := by
        intro v hv
        rw [mem_keys_introduce, or_left_comm (b := v = _), or_left_comm (b := v = _)] at hv
        exact mem_used_introduce.2 (hv.imp_right (h.used v))
      named := by
        intro v hv
        rcases mem_keys_introduce.1 hv with rfl | hv
        · exact ⟨fun hm => hnew (h.used x (.inr (.inl hm))), b.names.fresh_ne_epsilonName stem⟩
        · exact h.named v hv
      own := fun v hv => (hgrow.agree v (h.used v (.inl hv))).trans (h.own v hv)
      declares := by
        intro v r hr s hs
        refine hgrow.declares ?_
        rcases mem_alternatives_introduce.1 hr with hr | ⟨-, rfl⟩
        · exact h.declares v r hr s hs
        · exact hright s hs
      sound := by
        intro v r hr
        rcases mem_alternatives_introduce.1 hr with hr | ⟨rfl, rfl⟩
        · rw [h.substitute_eq hgrow (h.declares v r hr),
            hkeys v (Grammar.mem_keys_of_mem_alternatives hr)]
          exact h.sound v r hr
        · exact .inr ⟨hold, (h.substitute_eq hgrow hright).trans hself.symm⟩
      unfolds := by
        intro v hv hvold
        rcases mem_keys_introduce.1 hv with rfl | hv
        · rw [← hx, hself]
          exact h.derives_introduce stem hright hne
        · rw [hkeys v hv]
          exact hgrow.derives (h.unfolds v hv hvold)
      expands := by
        intro v hv
        rcases mem_keys_introduce.1 hv with rfl | hv
        · rw [← hx, hself]
          exact h.declares_substitute hright
        · rw [hkeys v hv]
          exact h.expands v hv
      shape := by
        intro v r hr
        rcases mem_alternatives_introduce.1 hr with hr | ⟨rfl, rfl⟩
        · exact h.shape v r hr
        · exact hshape
      isolated := by
        intro a v hav
        obtain ⟨hv, hfv⟩ := h.isolated a v hav
        exact ⟨hgrow.keys v hv, (hkeys v hv).trans hfv⟩
      anchored := by
        intro v hv
        rcases mem_keys_introduce.1 hv with rfl | hv
        · exact ⟨x, .inr List.mem_cons_self, .refl⟩
        · obtain ⟨u, hu, hpath⟩ := (h.anchored v hv).grow hgrow
          exact ⟨u, hu.imp_right (List.mem_cons_of_mem _), hpath⟩ }

end Binarization

end ChomskyForm
