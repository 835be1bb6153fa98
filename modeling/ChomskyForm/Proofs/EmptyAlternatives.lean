import ChomskyForm.Proofs.Analyses
import ChomskyForm.Stage.Epsilon

set_option autoImplicit false
set_option relaxedAutoImplicit false

/-!
# Empty alternatives can be left out

After the elimination of empty alternatives only the start symbol may have one, and it is needed
for the empty word only: every other word is generated without it, even where the start symbol
occurs in alternatives. Grammars with this property are called purged here. The later stages keep
it, and the elimination of unit alternatives relies on it.

## Main definitions

* `ChomskyForm.Grammar.Purged`: grammars in which empty alternatives serve the empty word only.

## Main results

* `ChomskyForm.Grammar.exists_variant_generates`: each generated word is generated, without empty
  alternatives, by a variant of the sequence.
* `ChomskyForm.Grammar.generates_eliminateEpsilon`: every variable generates the same words as
  before, apart from the empty word.
* `ChomskyForm.Grammar.generates_start_eliminateEpsilon`: the start symbol generates exactly the
  same words as before.
* `ChomskyForm.Grammar.purged_eliminateEpsilon`: the elimination leads to a purged grammar.
-/

namespace ChomskyForm

/-! ## Variants -/

/-- **One symbol more.** A variant leaves out the first symbol, if it is optional, or keeps it; the
rest is a variant of the rest. All inductions on variants go by this. -/
lemma mem_variants_cons {optional : SortedSet Name} {s : Symbol} {right right' : List Symbol} :
    right' ∈ variants optional (s :: right) ↔
      (s.isIn optional = true ∧ right' ∈ variants optional right) ∨
        ∃ tail ∈ variants optional right, s :: tail = right' := by
  rw [variants]
  split
  · next h => simp [h]
  · next h => simp [h]

/-- A variant is a part of the sequence, in its order. So every symbol of a variant is one of the
sequence. -/
lemma sublist_of_mem_variants {optional : SortedSet Name} {right right' : List Symbol}
    (h : right' ∈ variants optional right) : right'.Sublist right := by
  induction right generalizing right' with
  | nil =>
    rw [variants, List.mem_singleton] at h
    subst h
    exact List.nil_sublist _
  | cons s right ih =>
    rcases mem_variants_cons.1 h with ⟨-, htail⟩ | ⟨tail, htail, rfl⟩
    · exact (ih htail).cons s
    · exact (ih htail).cons_cons s

/-- A sequence of optional variables has the empty variant. -/
lemma nil_mem_variants {optional : SortedSet Name} {right : List Symbol}
    (h : ∀ s ∈ right, s.isIn optional = true) : [] ∈ variants optional right := by
  induction right with
  | nil => exact List.mem_singleton_self _
  | cons s right ih =>
    refine mem_variants_cons.2 (.inl ⟨h s List.mem_cons_self, ?_⟩)
    exact ih fun s hs => h s (List.mem_cons_of_mem _ hs)

/-- A symbol is in a set of names exactly when it is the nonterminal of a member. -/
lemma Symbol.isIn_iff {names : SortedSet Name} {s : Symbol} :
    s.isIn names = true ↔ ∃ v ∈ names, s = .nonterminal v := by
  cases s <;> simp [isIn]

namespace Grammar

variable {g : Grammar}

/-- **The alternatives after the elimination** are the variants of the alternatives before, the
empty one only at the start symbol. -/
lemma mem_alternatives_eliminateEpsilon {v : Name} {right : List Symbol} :
    right ∈ g.eliminateEpsilon.alternatives v ↔
      (∃ whole ∈ g.alternatives v, right ∈ variants g.nullable whole) ∧
        (right ≠ [] ∨ v = g.start) := by
  simp only [mem_alternatives, eliminateEpsilon, SortedMap.get?_mapValues]
  cases g.productions.get? v with
  | none => simp
  | some rights => simp [← SortedSet.mem_def]

/-! ## The generated words -/

/-- **The elimination is sound.** What a variant generates with the nullable variables left out,
the sequence generates.

**Proof sketch.** Induction on the sequence. A variable that has been left out is nullable, so it
generates the empty word in its place; all other symbols stay. -/
lemma generates_of_mem_variants {right right' : List Symbol} {w : List Name}
    (h : right' ∈ variants g.nullable right) (hw : g.Generates right' w) : g.Generates right w := by
  induction right generalizing right' w with
  | nil =>
    rw [variants, List.mem_singleton] at h
    rwa [h] at hw
  | cons s right ih =>
    rcases mem_variants_cons.1 h with ⟨hs, htail⟩ | ⟨tail, htail, rfl⟩
    · obtain ⟨v, hv, rfl⟩ := Symbol.isIn_iff.1 hs
      exact generates_cons.2 ⟨[], w, rfl, mem_nullable.1 hv, ih htail hw⟩
    · obtain ⟨x, y, rfl, hx, hy⟩ := generates_cons.1 hw
      exact generates_cons.2 ⟨x, y, rfl, hx, ih htail hy⟩

/-- **The elimination adds no words**, of no sequence: each alternative afterwards is a variant of
one before. -/
lemma generates_of_eliminateEpsilon {form : List Symbol} {w : List Name}
    (h : g.eliminateEpsilon.Generates form w) : g.Generates form w := by
  refine h.translate fun v right hr w hw => ?_
  obtain ⟨⟨whole, hwhole, hvariant⟩, -⟩ := mem_alternatives_eliminateEpsilon.1 hr
  exact generates_nonterminal.2 ⟨whole, hwhole, generates_of_mem_variants hvariant hw⟩

/-- **Variants suffice.** Each word that a sequence generates is generated by one of its variants
after the elimination, and without any empty alternative.

**Proof sketch.** Induction on generation. A variable at the front is left out when its
alternative has come down to the empty variant, for then the variable is nullable. Otherwise it
stays, and the variant of its alternative is one of its alternatives after the elimination. -/
theorem exists_variant_generates {form : List Symbol} {w : List Name} (h : g.Generates form w) :
    ∃ form' ∈ variants g.nullable form, g.eliminateEpsilon.withoutEmpty.Generates form' w := by
  induction h with
  | nil => exact ⟨[], List.mem_singleton_self _, .nil⟩
  | terminal a _ ih =>
    obtain ⟨tail, htail, hw⟩ := ih
    exact ⟨_, mem_variants_cons.2 (.inr ⟨tail, htail, rfl⟩), .terminal a hw⟩
  | epsilon _ ih =>
    obtain ⟨tail, htail, hw⟩ := ih
    exact ⟨_, mem_variants_cons.2 (.inr ⟨tail, htail, rfl⟩), .epsilon hw⟩
  | @nonterminal v right rest u w hr hu _ ihu ihw =>
    obtain ⟨tail, htail, hw⟩ := ihw
    obtain ⟨right', hright', hu'⟩ := ihu
    by_cases hne : right' = []
    · -- the word of the alternative is empty, so the variable is nullable
      subst hne
      rw [generates_nil] at hu'
      subst hu'
      have hv : v ∈ g.nullable := mem_nullable.2 (generates_nonterminal.2 ⟨right, hr, hu⟩)
      exact ⟨tail, mem_variants_cons.2 (.inl ⟨Symbol.isIn_iff.2 ⟨v, hv, rfl⟩, htail⟩), hw⟩
    · have halt : right' ∈ g.eliminateEpsilon.withoutEmpty.alternatives v :=
        mem_alternatives_withoutEmpty.2
          ⟨mem_alternatives_eliminateEpsilon.2 ⟨⟨right, hr, hright'⟩, .inl hne⟩, hne⟩
      exact ⟨_, mem_variants_cons.2 (.inr ⟨tail, htail, rfl⟩), .nonterminal halt hu' hw⟩

/-- A variable generates each word that is not empty also after the elimination, and without any
empty alternative. The variant that generates the word keeps the variable, because the empty
variant generates the empty word only. -/
lemma generates_withoutEmpty_eliminateEpsilon {v : Name} {w : List Name}
    (h : g.Generates [.nonterminal v] w) (hw : w ≠ []) :
    g.eliminateEpsilon.withoutEmpty.Generates [.nonterminal v] w := by
  obtain ⟨form, hform, hgen⟩ := exists_variant_generates h
  rcases mem_variants_cons.1 hform with ⟨-, hform⟩ | ⟨tail, htail, rfl⟩
  · rw [variants, List.mem_singleton] at hform
    subst hform
    exact absurd (generates_nil.1 hgen) hw
  · rw [variants, List.mem_singleton] at htail
    rwa [htail] at hgen

/-- **Every variable** generates the same words as before, apart from the empty word. -/
theorem generates_eliminateEpsilon {v : Name} {w : List Name} (hw : w ≠ []) :
    g.eliminateEpsilon.Generates [.nonterminal v] w ↔ g.Generates [.nonterminal v] w :=
  ⟨generates_of_eliminateEpsilon,
    fun h => (generates_withoutEmpty_eliminateEpsilon h hw).of_withoutEmpty⟩

/-- A sequence that generates the empty word consists of nullable variables: each of its symbols
generates a part of the empty word, and no terminal does. -/
lemma isIn_nullable_of_generates {form : List Symbol} (h : g.Generates form [])
    (hmark : .epsilon ∉ form) : ∀ s ∈ form, s.isIn g.nullable = true := by
  intro s hs
  obtain ⟨u, hu, hgen⟩ := exists_infix_generates h hs
  rw [List.infix_nil] at hu
  subst hu
  cases s with
  | terminal a => exact absurd (generates_terminal.1 hgen) (by simp)
  | nonterminal v => exact Symbol.isIn_iff.2 ⟨v, mem_nullable.2 hgen, rfl⟩
  | epsilon => exact absurd hs hmark

/-- **The empty alternative of the start symbol** is there exactly when the start symbol generated
the empty word.

**Proof sketch.** An empty alternative is the empty variant of an alternative, which then generates
the empty word. Conversely, an alternative that generates it consists of nullable variables, all of
which may be left out. -/
theorem nil_mem_alternatives_eliminateEpsilon (hg : g.WellFormed) {v : Name} :
    [] ∈ g.eliminateEpsilon.alternatives v ↔
      v = g.start ∧ g.Generates [.nonterminal g.start] [] := by
  rw [mem_alternatives_eliminateEpsilon]
  constructor
  · rintro ⟨⟨whole, hwhole, hvariant⟩, hv⟩
    have hv : v = g.start := hv.resolve_left fun hne => hne rfl
    subst hv
    exact ⟨rfl, generates_nonterminal.2
      ⟨whole, hwhole, generates_of_mem_variants hvariant .nil⟩⟩
  · rintro ⟨rfl, h⟩
    obtain ⟨whole, hwhole, hgen⟩ := generates_nonterminal.1 h
    refine ⟨⟨whole, hwhole, nil_mem_variants ?_⟩, .inr rfl⟩
    exact isIn_nullable_of_generates hgen (hg.epsilon_notMem hwhole)

/-- **The start symbol** generates exactly the same words as before. For the empty word it has kept
an empty alternative, and for other words none is needed. -/
theorem generates_start_eliminateEpsilon (hg : g.WellFormed) {w : List Name} :
    g.eliminateEpsilon.Generates [.nonterminal g.start] w ↔
      g.Generates [.nonterminal g.start] w := by
  refine ⟨generates_of_eliminateEpsilon, fun h => ?_⟩
  by_cases hw : w = []
  · subst hw
    exact generates_nonterminal.2
      ⟨[], (nil_mem_alternatives_eliminateEpsilon hg).2 ⟨rfl, h⟩, .nil⟩
  · exact (generates_eliminateEpsilon hw).2 h

/-- **The elimination keeps a grammar well formed**: the declarations stay, and variants hold
symbols of the alternatives only. -/
lemma wellFormed_eliminateEpsilon (hg : g.WellFormed) : g.eliminateEpsilon.WellFormed where
  start_mem := hg.start_mem
  disjoint := hg.disjoint
  unreserved_nonterminals := hg.unreserved_nonterminals
  unreserved_terminals := hg.unreserved_terminals
  left_mem := by
    simpa [eliminateEpsilon] using hg.left_mem
  declares := by
    intro v right hr s hs
    obtain ⟨⟨whole, hwhole, hvariant⟩, -⟩ := mem_alternatives_eliminateEpsilon.1 hr
    exact hg.declares v whole hwhole s ((sublist_of_mem_variants hvariant).subset hs)

/-! ## Purged grammars -/

/-- **Purged grammars.** Empty alternatives serve the empty word only. A grammar may be purged
although its start symbol has an empty alternative and occurs in alternatives; what counts is that
no other word depends on it. -/
structure Purged (g : Grammar) : Prop where
  /-- Only the start symbol has an empty alternative. -/
  eq_start : ∀ v, [] ∈ g.alternatives v → v = g.start
  /-- A word that is not empty is generated without empty alternatives. -/
  dispensable : ∀ w, w ≠ [] → g.Generates [.nonterminal g.start] w →
    g.withoutEmpty.Generates [.nonterminal g.start] w

/-- **The elimination leads to a purged grammar**, whatever stages come later. -/
theorem purged_eliminateEpsilon (hg : g.WellFormed) : g.eliminateEpsilon.Purged where
  eq_start _ hv := ((nil_mem_alternatives_eliminateEpsilon hg).1 hv).1
  dispensable _ hw h :=
    generates_withoutEmpty_eliminateEpsilon ((generates_start_eliminateEpsilon hg).1 h) hw

/-- **Where the empty word comes from.** A well-formed grammar in which only the start symbol has
an empty alternative generates the empty word by this alternative, if at all.

**Proof sketch.** Induction on generation. The variable at the front generates the empty word. If
its alternative is empty, the variable is the start symbol; otherwise the alternative is not empty
and generates the empty word itself. -/
lemma nil_mem_of_generates (hg : g.WellFormed) (hstart : ∀ v, [] ∈ g.alternatives v → v = g.start)
    {form : List Symbol} {w : List Name} (h : g.Generates form w) (hw : w = [])
    (hne : form ≠ []) (hmark : .epsilon ∉ form) : [] ∈ g.alternatives g.start := by
  induction h with
  | nil => exact absurd rfl hne
  | terminal => cases hw
  | epsilon => exact absurd List.mem_cons_self hmark
  | @nonterminal v right rest u w hr _ _ ihu _ =>
    by_cases hright : right = []
    · subst hright
      rwa [← hstart v hr]
    · exact ihu (List.append_eq_nil_iff.1 hw).1 hright (hg.epsilon_notMem hr)

/-- **The empty word** is generated by a purged grammar exactly when the start symbol has an empty
alternative. -/
theorem Purged.generates_nil_iff (hg : g.WellFormed) (h : g.Purged) :
    g.Generates [.nonterminal g.start] [] ↔ [] ∈ g.alternatives g.start :=
  ⟨fun hgen => nil_mem_of_generates hg h.eq_start hgen rfl (by simp) (by simp),
    fun hnil => generates_nonterminal.2 ⟨[], hnil, .nil⟩⟩

/-- **A word that is not empty** is generated by a purged grammar exactly when it is generated
without empty alternatives. -/
theorem Purged.generates_iff_withoutEmpty (h : g.Purged) {w : List Name} (hw : w ≠ []) :
    g.Generates [.nonterminal g.start] w ↔ g.withoutEmpty.Generates [.nonterminal g.start] w :=
  ⟨h.dispensable w hw, fun hgen => hgen.of_withoutEmpty⟩

/-- **How a stage keeps a grammar purged**: it adds no word to the start symbol, it loses no word
that was generated without empty alternatives, and it gives no other variable an empty one.

**Proof sketch.** A word that is generated afterwards was generated before, so it was generated
without empty alternatives, and still is. -/
lemma Purged.of_stage {h : Grammar} (hg : g.Purged) (hstart : h.start = g.start)
    (hempty : ∀ v, [] ∈ h.alternatives v → v = g.start)
    (sound : ∀ w, h.Generates [.nonterminal g.start] w → g.Generates [.nonterminal g.start] w)
    (complete : ∀ w, g.withoutEmpty.Generates [.nonterminal g.start] w →
      h.withoutEmpty.Generates [.nonterminal g.start] w) : h.Purged := by
  refine ⟨fun v hv => hstart ▸ hempty v hv, fun w hw hgen => ?_⟩
  rw [hstart] at hgen ⊢
  exact complete w (hg.dispensable w hw (sound w hgen))

end Grammar

end ChomskyForm
