import ChomskyForm.Grammar.Basic

set_option autoImplicit false
set_option relaxedAutoImplicit false

/-!
# Derivations and generated words

The words of a grammar are defined twice. A derivation replaces one variable after the other, and
ends when only terminals are left; the forms in between are the sentential forms. Generation
goes by the structure of a sequence of symbols instead: each terminal gives its letter, each
variable a word that one of its alternatives gives. The second form is the one to do inductions
on; that both give the same words is the main result.

## Main definitions

* `ChomskyForm.Grammar.Step`: one replacement in a sentential form.
* `ChomskyForm.Grammar.Derives`: any number of replacements.
* `ChomskyForm.Grammar.Generates`: the words of a sequence of symbols.

## Main results

* `ChomskyForm.Grammar.generates_append`: the words of a concatenation are concatenations of words.
* `ChomskyForm.Grammar.generates_iff_derives`: for sequences and grammars without the mark for the
  empty word, a word is generated exactly when it can be derived.
-/

namespace ChomskyForm

namespace Grammar

variable {g : Grammar}

/-! ## Derivations -/

/-- **One step of a derivation**: a variable is replaced by one of its alternatives. Any occurrence
may be chosen; derivations are not only those that replace the leftmost one. -/
inductive Step (g : Grammar) : List Symbol → List Symbol → Prop where
  /-- One occurrence of a variable, anywhere in the sequence, is replaced. -/
  | replace {v : Name} {right : List Symbol} (before after : List Symbol)
      (h : right ∈ g.alternatives v) :
      Step g (before ++ .nonterminal v :: after) (before ++ right ++ after)

/-- **Derivations**: any number of steps, none included. The first step comes first, so that an
induction peels a derivation from its beginning. -/
inductive Derives (g : Grammar) : List Symbol → List Symbol → Prop where
  /-- No step at all. -/
  | refl (form : List Symbol) : Derives g form form
  /-- A step, and a derivation from what it leads to. -/
  | head {form form' form'' : List Symbol} :
      Step g form form' → Derives g form' form'' → Derives g form form''

/-- Derivations can be put one after the other. -/
theorem Derives.trans {a b c : List Symbol} (h : g.Derives a b) (h' : g.Derives b c) :
    g.Derives a c := by
  induction h with
  | refl => exact h'
  | head step _ ih => exact .head step (ih h')

/-- A step can be made inside a longer form. -/
theorem Step.context {a b : List Symbol} (h : g.Step a b) (before after : List Symbol) :
    g.Step (before ++ a ++ after) (before ++ b ++ after) := by
  cases h with
  | replace x y h =>
    have := Step.replace (before ++ x) (y ++ after) h
    simpa [List.append_assoc] using this

/-- A derivation can be made inside a longer form. -/
theorem Derives.context {a b : List Symbol} (h : g.Derives a b) (before after : List Symbol) :
    g.Derives (before ++ a ++ after) (before ++ b ++ after) := by
  induction h with
  | refl => exact .refl _
  | head step _ ih => exact .head (step.context before after) ih

/-! ## Generation -/

/-- **Generation.** The words of a sequence of symbols, by its first symbol: a terminal gives its
letter, the mark for the empty word gives nothing, and a variable gives a word of one of its
alternatives. -/
inductive Generates (g : Grammar) : List Symbol → List Name → Prop where
  /-- Nothing generates the empty word. -/
  | nil : Generates g [] []
  /-- A terminal generates itself. -/
  | terminal {rest : List Symbol} {w : List Name} (a : Name) (h : Generates g rest w) :
      Generates g (.terminal a :: rest) (a :: w)
  /-- The mark of the empty word generates nothing. -/
  | epsilon {rest : List Symbol} {w : List Name} (h : Generates g rest w) :
      Generates g (.epsilon :: rest) w
  /-- A variable generates what one of its alternatives does. -/
  | nonterminal {v : Name} {right rest : List Symbol} {u w : List Name}
      (hr : right ∈ g.alternatives v) (hu : Generates g right u) (hw : Generates g rest w) :
      Generates g (.nonterminal v :: rest) (u ++ w)

/-- **The words of a concatenation** are the concatenations of words of its parts.

**Proof sketch.** In one direction by induction on the first part: its first symbol generates the
beginning of the word, and the rest is split by the induction hypothesis. In the other by induction
on the generation of the first word. -/
theorem generates_append {l r : List Symbol} {w : List Name} :
    g.Generates (l ++ r) w ↔ ∃ u v, w = u ++ v ∧ g.Generates l u ∧ g.Generates r v := by
  constructor
  · intro h
    induction l generalizing w with
    | nil => exact ⟨[], w, rfl, .nil, h⟩
    | cons s l ih =>
      cases h with
      | terminal a h =>
        obtain ⟨u, v, rfl, hl, hr⟩ := ih h
        exact ⟨a :: u, v, rfl, .terminal a hl, hr⟩
      | epsilon h =>
        obtain ⟨u, v, rfl, hl, hr⟩ := ih h
        exact ⟨u, v, rfl, .epsilon hl, hr⟩
      | nonterminal ha hu h =>
        obtain ⟨u', v, rfl, hl, hr⟩ := ih h
        exact ⟨_ ++ u', v, (List.append_assoc _ _ _).symm, .nonterminal ha hu hl, hr⟩
  · rintro ⟨u, v, rfl, hl, hr⟩
    induction hl with
    | nil => exact hr
    | terminal a _ ih => exact .terminal a ih
    | epsilon _ ih => exact .epsilon ih
    | nonterminal ha hu _ _ ih =>
      rw [List.append_assoc]
      exact .nonterminal ha hu ih

/-- A variable generates what its alternatives generate. -/
theorem generates_nonterminal {v : Name} {w : List Name} :
    g.Generates [.nonterminal v] w ↔ ∃ right ∈ g.alternatives v, g.Generates right w := by
  constructor
  · intro h
    cases h with
    | nonterminal ha hu h =>
      cases h
      rw [List.append_nil]
      exact ⟨_, ha, hu⟩
  · rintro ⟨right, ha, h⟩
    simpa using Generates.nonterminal ha h .nil

/-- Terminals generate their letters. -/
theorem generates_terminals (w : List Name) : g.Generates (w.map .terminal) w := by
  induction w with
  | nil => exact .nil
  | cons a w ih => exact .terminal a ih

/-- What is generated after a step was generated before it: the part of the word that comes from
the alternative is generated by the variable that it replaced. -/
theorem Step.generates {a b : List Symbol} {w : List Name} (h : g.Step a b)
    (hw : g.Generates b w) : g.Generates a w := by
  cases h with
  | replace before after ha =>
    rw [List.append_assoc] at hw
    obtain ⟨u, v, rfl, hu, hv⟩ := generates_append.1 hw
    obtain ⟨x, y, rfl, hx, hy⟩ := generates_append.1 hv
    exact generates_append.2 ⟨u, _, rfl, hu, .nonterminal ha hx hy⟩

/-- A derived word is generated. -/
theorem Derives.generates {a b : List Symbol} {w : List Name} (h : g.Derives a b)
    (hw : g.Generates b w) : g.Generates a w := by
  induction h with
  | refl => exact hw
  | head step _ ih => exact step.generates (ih hw)

/-- A generated word can be derived, if the mark for the empty word occurs nowhere.

**Proof sketch.** Induction on generation. A terminal at the front stays where it is while the
rest is derived; a variable at the front is replaced first, then the word of its alternative is
derived in front of the rest, and at last the rest behind that word. -/
theorem Generates.derives (hg : ∀ v, ∀ right ∈ g.alternatives v, .epsilon ∉ right)
    {form : List Symbol} {w : List Name} (h : g.Generates form w) (hf : .epsilon ∉ form) :
    g.Derives form (w.map .terminal) := by
  induction h with
  | nil => exact .refl _
  | terminal a _ ih =>
    have := (ih fun hm => hf (List.mem_cons_of_mem _ hm)).context [.terminal a] []
    simpa using this
  | epsilon => exact absurd List.mem_cons_self hf
  | @nonterminal v right rest u w ha _ _ ihu ihw =>
    have first : g.Derives (.nonterminal v :: rest) (right ++ rest) :=
      .head (Step.replace [] rest ha) (.refl _)
    have second := (ihu (hg v right ha)).context [] rest
    have third := (ihw fun hm => hf (List.mem_cons_of_mem _ hm)).context (u.map .terminal) []
    simp only [List.nil_append, List.append_nil] at second third
    simpa using first.trans (second.trans third)

/-- **Generation is derivation.** Where the mark for the empty word occurs nowhere, a sequence of
symbols generates exactly the words that can be derived from it. -/
theorem generates_iff_derives (hg : ∀ v, ∀ right ∈ g.alternatives v, .epsilon ∉ right)
    {form : List Symbol} {w : List Name} (hf : .epsilon ∉ form) :
    g.Generates form w ↔ g.Derives form (w.map .terminal) :=
  ⟨fun h => h.derives hg hf, fun h => h.generates (generates_terminals w)⟩

end Grammar

end ChomskyForm
