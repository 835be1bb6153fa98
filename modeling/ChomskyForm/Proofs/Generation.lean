import Mathlib.Tactic.Common
import ChomskyForm.Grammar.WellFormed

set_option autoImplicit false
set_option relaxedAutoImplicit false

/-!
# Comparing what two grammars generate

What one grammar generates is compared with what another one generates rule by rule: if every
rule of the first is sound in the second, then so is everything that the first generates. A
variable of the first grammar may stand for a whole sequence of symbols of the second.

## Main definitions

* `ChomskyForm.substitute`: a sequence of symbols with each variable replaced by a sequence.
* `ChomskyForm.Grammar.withoutEmpty`: a grammar without its empty alternatives. What it generates
  is what the grammar generates without the use of empty alternatives.

## Main results

* `ChomskyForm.Grammar.Generates.substitute`: soundness of rules under a substitution.
* `ChomskyForm.Grammar.Generates.translate`: the same for variables that stand for themselves.
* `ChomskyForm.Grammar.ne_nil_of_generates_withoutEmpty`: without empty alternatives only words
  that are not empty are generated.
-/

namespace ChomskyForm

/-! ## Substitution -/

/-- The sequence that a symbol stands for when each variable stands for a sequence. Terminals and
the mark for the empty word stand for themselves. -/
def Symbol.substitute (f : Name → List Symbol) : Symbol → List Symbol
  | nonterminal v => f v
  | s => [s]

/-- **Substitution.** Each variable is replaced by the sequence that it stands for. What is put in
its place is not substituted again. -/
def substitute (f : Name → List Symbol) (form : List Symbol) : List Symbol :=
  form.flatMap (Symbol.substitute f)

section Substitution

variable {f f' : Name → List Symbol}

/-- In the empty sequence there is nothing to be replaced. -/
@[simp] lemma substitute_nil : substitute f [] = [] := rfl

/-- A substitution goes symbol by symbol. -/
@[simp] lemma substitute_cons (s : Symbol) (form : List Symbol) :
    substitute f (s :: form) = s.substitute f ++ substitute f form := List.flatMap_cons

/-- A substitution goes part by part. -/
@[simp] lemma substitute_append (form form' : List Symbol) :
    substitute f (form ++ form') = substitute f form ++ substitute f form' := List.flatMap_append

/-- A terminal stands for itself. -/
@[simp] lemma Symbol.substitute_terminal (a : Name) :
    (terminal a).substitute f = [terminal a] := rfl

/-- A variable stands for its sequence. -/
@[simp] lemma Symbol.substitute_nonterminal (v : Name) : (nonterminal v).substitute f = f v := rfl

/-- Substitutions that agree on the variables of a sequence give the same. -/
lemma substitute_congr {form : List Symbol} (h : ∀ v, .nonterminal v ∈ form → f v = f' v) :
    substitute f form = substitute f' form := by
  induction form with
  | nil => rfl
  | cons s form ih =>
    have hs : s.substitute f = s.substitute f' := by
      cases s with
      | nonterminal v => exact h v List.mem_cons_self
      | terminal | epsilon => rfl
    rw [substitute_cons, substitute_cons, hs, ih fun v hv => h v (List.mem_cons_of_mem _ hv)]

/-- A sequence whose variables stand for themselves is left as it is. -/
lemma substitute_eq_self {form : List Symbol}
    (h : ∀ v, .nonterminal v ∈ form → f v = [.nonterminal v]) : substitute f form = form := by
  induction form with
  | nil => rfl
  | cons s form ih =>
    have hs : s.substitute f = [s] := by
      cases s with
      | nonterminal v => exact h v List.mem_cons_self
      | terminal | epsilon => rfl
    rw [substitute_cons, hs, ih fun v hv => h v (List.mem_cons_of_mem _ hv)]
    rfl

end Substitution

namespace Grammar

variable {g h : Grammar}

/-! ## Soundness of rules -/

/-- **The words of a sequence** are those of its first symbol followed by those of the rest. -/
lemma generates_cons {s : Symbol} {form : List Symbol} {w : List Name} :
    g.Generates (s :: form) w ↔ ∃ u v, w = u ++ v ∧ g.Generates [s] u ∧ g.Generates form v :=
  generates_append (l := [s])

/-- A terminal generates its letter only. -/
lemma generates_terminal {a : Name} {w : List Name} : g.Generates [.terminal a] w ↔ w = [a] := by
  constructor
  · intro hw
    cases hw with
    | terminal _ hw =>
      cases hw
      rfl
  · rintro rfl
    exact .terminal a .nil

/-- The empty sequence generates the empty word only. -/
lemma generates_nil {w : List Name} : g.Generates [] w ↔ w = [] := by
  constructor
  · intro hw
    cases hw
    rfl
  · rintro rfl
    exact .nil

/-- **Each symbol of a sequence generates a part of the word.** Where the part stands is not said;
for most uses it is enough that it is empty if the word is. -/
lemma exists_infix_generates {form : List Symbol} {w : List Name} (hgen : g.Generates form w)
    {s : Symbol} (hs : s ∈ form) : ∃ u, u <:+: w ∧ g.Generates [s] u := by
  obtain ⟨before, after, rfl⟩ := List.append_of_mem hs
  obtain ⟨x, y, rfl, -, hy⟩ := generates_append.1 hgen
  obtain ⟨u, v, rfl, hu, -⟩ := generates_cons.1 hy
  exact ⟨u, ⟨x, v, by simp⟩, hu⟩

/-- **Sound rules.** If the second grammar generates, from what a left-hand side stands for, all
that it generates from what a right-hand side stands for, then it generates all that the first
grammar does.

**Proof sketch.** Induction on generation. A variable at the front generates its part of the word
from what its alternative stands for, hence from what it stands for itself, and the parts are put
together. -/
theorem Generates.substitute {f : Name → List Symbol}
    (rule : ∀ v, ∀ right ∈ g.alternatives v, ∀ w, h.Generates (ChomskyForm.substitute f right) w →
      h.Generates (f v) w)
    {form : List Symbol} {w : List Name} (hgen : g.Generates form w) :
    h.Generates (ChomskyForm.substitute f form) w := by
  induction hgen with
  | nil => exact .nil
  | terminal a _ ih => exact .terminal a ih
  | epsilon _ ih => exact .epsilon ih
  | nonterminal hr _ _ ihu ihw =>
    exact generates_append.2 ⟨_, _, rfl, rule _ _ hr _ ihu, ihw⟩

/-- **Sound rules**, for variables that stand for themselves. Most stages are compared with what
was before them in this way. -/
theorem Generates.translate
    (rule : ∀ v, ∀ right ∈ g.alternatives v, ∀ w, h.Generates right w →
      h.Generates [.nonterminal v] w)
    {form : List Symbol} {w : List Name} (hgen : g.Generates form w) : h.Generates form w := by
  have hself : ∀ form : List Symbol,
      ChomskyForm.substitute (fun v => [.nonterminal v]) form = form :=
    fun _ => substitute_eq_self fun _ _ => rfl
  rw [← hself form]
  refine hgen.substitute fun v right hr w hw => rule v right hr w ?_
  rwa [hself] at hw

/-- A grammar with more alternatives generates more, from the same sequences. -/
lemma Generates.mono (hsub : ∀ v, ∀ right ∈ g.alternatives v, right ∈ h.alternatives v)
    {form : List Symbol} {w : List Name} (hgen : g.Generates form w) : h.Generates form w :=
  hgen.translate fun v right hr _ hw => generates_nonterminal.2 ⟨right, hsub v right hr, hw⟩

/-- A grammar with more alternatives derives more, by the same steps. -/
lemma Derives.mono (hsub : ∀ v, ∀ right ∈ g.alternatives v, right ∈ h.alternatives v)
    {form form' : List Symbol} (hder : g.Derives form form') : h.Derives form form' := by
  induction hder with
  | refl => exact .refl _
  | head step _ ih =>
    cases step with
    | replace before after hr => exact .head (.replace before after (hsub _ _ hr)) ih

/-- Well-formed grammars in which a variable generates the same word derive it alike. Results are
proved for generation and stated for derivations by this. -/
lemma WellFormed.derives_congr (hg : g.WellFormed) (hh : h.WellFormed) {v : Name} {w : List Name}
    (hwords : g.Generates [.nonterminal v] w ↔ h.Generates [.nonterminal v] w) :
    g.Derives [.nonterminal v] (w.map .terminal) ↔ h.Derives [.nonterminal v] (w.map .terminal) :=
  hg.generates_iff_derives.symm.trans (hwords.trans hh.generates_iff_derives)

/-- **In a well-formed grammar only declared symbols are derived from declared ones.**

**Proof sketch.** Induction on the derivation, from its beginning. A step replaces a variable by
symbols of an alternative, which are declared, and keeps the others. -/
lemma WellFormed.declares_of_derives (hg : g.WellFormed) {form form' : List Symbol}
    (hder : g.Derives form form') (hform : ∀ s ∈ form, g.Declares s) :
    ∀ s ∈ form', g.Declares s := by
  induction hder with
  | refl => exact hform
  | head step _ ih =>
    refine ih fun s hs => ?_
    cases step with
    | @replace v right before after hr =>
      rw [List.append_assoc, List.mem_append, List.mem_append] at hs
      rcases hs with hs | hs | hs
      · exact hform s (List.mem_append_left _ hs)
      · exact hg.declares v right hr s hs
      · exact hform s (List.mem_append_right _ (List.mem_cons_of_mem _ hs))

/-! ## Grammars without empty alternatives -/

/-- **The grammar without its empty alternatives.** The variables keep their entries. Unlike the
elimination of empty alternatives, this changes the words. -/
def withoutEmpty (g : Grammar) : Grammar :=
  { g with productions := g.productions.mapValues fun _ rights => rights.filter (!·.isEmpty) }

/-- The alternatives that are left are those that are not empty. -/
@[simp] lemma mem_alternatives_withoutEmpty {v : Name} {right : List Symbol} :
    right ∈ g.withoutEmpty.alternatives v ↔ right ∈ g.alternatives v ∧ right ≠ [] := by
  simp only [mem_alternatives, withoutEmpty, SortedMap.get?_mapValues]
  cases g.productions.get? v <;> simp

/-- What is generated without empty alternatives is generated. -/
lemma Generates.of_withoutEmpty {form : List Symbol} {w : List Name}
    (hgen : g.withoutEmpty.Generates form w) : g.Generates form w :=
  hgen.mono fun _ _ hr => (mem_alternatives_withoutEmpty.1 hr).1

/-- What is derived without empty alternatives is derived. -/
lemma Derives.of_withoutEmpty {form form' : List Symbol}
    (hder : g.withoutEmpty.Derives form form') : g.Derives form form' :=
  hder.mono fun _ _ hr => (mem_alternatives_withoutEmpty.1 hr).1

/-- **No empty words.** Without empty alternatives, and without the mark for the empty word, a
sequence that is not empty generates no empty word.

**Proof sketch.** Induction on generation. The first symbol is a terminal, which gives its letter,
or a variable, whose alternative is not empty and so gives a word that is not empty. -/
lemma ne_nil_of_generates_withoutEmpty
    (hg : ∀ v, ∀ right ∈ g.alternatives v, .epsilon ∉ right) {form : List Symbol} {w : List Name}
    (hgen : g.withoutEmpty.Generates form w) (hform : form ≠ []) (hmark : .epsilon ∉ form) :
    w ≠ [] := by
  induction hgen with
  | nil => exact absurd rfl hform
  | terminal a _ _ => exact List.cons_ne_nil _ _
  | epsilon _ _ => exact absurd List.mem_cons_self hmark
  | @nonterminal v right rest u w hr _ _ ihu _ =>
    obtain ⟨hr, hne⟩ := mem_alternatives_withoutEmpty.1 hr
    have hu : u ≠ [] := ihu hne (hg v right hr)
    simp [hu]

end Grammar

end ChomskyForm
