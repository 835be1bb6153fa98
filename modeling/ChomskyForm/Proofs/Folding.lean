import ChomskyForm.Proofs.Expansion

set_option autoImplicit false
set_option relaxedAutoImplicit false

/-!
# The run of a binarization

All steps of a binarization keep it faithful: the isolation of terminals, the folding of a
right-hand side, and with them the binary form of every alternative. Each alternative gets a
counterpart that expands to it, and later steps take nothing of this away.

## Main definitions

* `ChomskyForm.Binarization.Covered`: rules with a counterpart.

## Main results

* `ChomskyForm.Binarization.Faithful.isolateAll`: the isolation of terminals.
* `ChomskyForm.Binarization.Faithful.fold`: the folding of a right-hand side.
* `ChomskyForm.Binarization.Faithful.addBinary`: the binary form of an alternative.
* `ChomskyForm.Binarization.exists_faithful`: a binarization is faithful and covers all rules.
-/

namespace ChomskyForm

namespace Binarization

variable {g : Grammar} {b b' : Binarization} {f f' : Name → List Symbol} {pending : List Symbol}

/-! ## Isolation of terminals -/

/-- **The variable of a terminal** stands for it.

**Proof sketch.** If the terminal was isolated before, its variable is known to stand for it, and
it may be pending as well. Otherwise a new variable is made, with the terminal as its only
alternative, and noted for the next time. -/
lemma Faithful.isolate (h : Faithful g f pending b) {a : Name} (ha : a ∈ g.terminals) :
    ∃ f', Faithful g f' (.nonterminal (b.isolate a).1 :: pending) (b.isolate a).2 ∧
      Grows g f b f' (b.isolate a).2 ∧ f' (b.isolate a).1 = [.terminal a] ∧
      (b.isolate a).1 ∈ (b.isolate a).2.productions.keys := by
  unfold Binarization.isolate
  split
  · next v hv =>
    obtain ⟨hkey, hfv⟩ := h.isolated a v hv
    refine ⟨f, h.replacePending fun u hu => ?_, .refl g f b, hfv, hkey⟩
    exact ⟨u, .inr (List.mem_cons_of_mem _ hu), .refl⟩
  · obtain ⟨f', hfaithful, hgrow, hfx⟩ := h.introduce b.naming.terminalStem
      [.terminal a] (fun s hs => by rw [List.mem_singleton.1 hs]; exact ha) (List.cons_ne_nil _ _)
      (.single a)
    have hkey : (b.fresh b.naming.terminalStem).1 ∈
        (b.introduce b.naming.terminalStem [.terminal a]).productions.keys :=
      mem_keys_introduce.2 (.inl rfl)
    refine ⟨f', { hfaithful with isolated := ?_ },
      ⟨hgrow.alternatives, hgrow.keys, hgrow.used, hgrow.agree⟩, hfx, hkey⟩
    intro c v hcv
    dsimp only at hcv
    rw [SortedMap.get?_insert] at hcv
    split at hcv
    · next hca =>
      subst hca
      obtain rfl := Option.some.inj hcv
      exact ⟨hkey, hfx⟩
    · exact hfaithful.isolated c v hcv

/-- **Isolation of all terminals** of a right-hand side leads to a sequence of declared variables
that expands to it.

**Proof sketch.** Induction on the right-hand side, with any state to begin with. Variables stay
and stand for themselves; a terminal becomes its variable, which keeps what it stands for while the
rest is worked on, because it is in use. -/
theorem Faithful.isolateAll (h : Faithful g f pending b) {right : List Symbol}
    (hright : ∀ s ∈ right, g.Declares s) :
    ∃ f', Faithful g f' ((b.isolateAll right).1 ++ pending) (b.isolateAll right).2 ∧
      Grows g f b f' (b.isolateAll right).2 ∧ substitute f' (b.isolateAll right).1 = right ∧
      (b.isolateAll right).1.length = right.length ∧
      ∀ s ∈ (b.isolateAll right).1, ((b.isolateAll right).2.toGrammar g).Declares s ∧
        ∃ v, s = .nonterminal v := by
  induction right generalizing f b pending with
  | nil => exact ⟨f, h, .refl g f b, rfl, rfl, by simp [Binarization.isolateAll]⟩
  | cons s right ih =>
    have hrest : ∀ t ∈ right, g.Declares t := fun t ht => hright t (List.mem_cons_of_mem _ ht)
    cases s with
    | epsilon => exact absurd (hright _ List.mem_cons_self) id
    | nonterminal v =>
      have hv : v ∈ g.nonterminals := hright _ List.mem_cons_self
      obtain ⟨f', hfaithful, hgrow, hsub, hlen, hall⟩ := ih h hrest
      refine ⟨f', hfaithful.replacePending fun u hu => ?_, hgrow, ?_, ?_, ?_⟩
      · exact ⟨u, .inr (List.mem_cons_of_mem _ hu), .refl⟩
      · simp only [Binarization.isolateAll, substitute_cons, hsub]
        rw [Symbol.substitute_nonterminal, hfaithful.own v hv]
        rfl
      · simp [Binarization.isolateAll, hlen]
      · intro t ht
        rcases List.mem_cons.1 ht with rfl | ht
        · exact ⟨declares_nonterminal.2 (.inr hv), v, rfl⟩
        · exact hall t ht
    | terminal a =>
      obtain ⟨f₁, hfaithful₁, hgrow₁, hfx, hkey⟩ := h.isolate (hright _ List.mem_cons_self)
      obtain ⟨f₂, hfaithful₂, hgrow₂, hsub, hlen, hall⟩ := ih hfaithful₁ hrest
      refine ⟨f₂, hfaithful₂.replacePending fun u hu => ?_, hgrow₁.trans hgrow₂, ?_, ?_, ?_⟩
      · refine ⟨u, .inr ?_, .refl⟩
        simp only [Binarization.isolateAll, List.mem_append, List.mem_cons] at hu ⊢
        tauto
      · have hused := hfaithful₁.used _ (.inr (.inr hkey))
        simp only [Binarization.isolateAll, substitute_cons, hsub]
        rw [Symbol.substitute_nonterminal, hgrow₂.agree _ hused, hfx]
        rfl
      · simp [Binarization.isolateAll, hlen]
      · intro t ht
        rcases List.mem_cons.1 ht with rfl | ht
        · exact ⟨declares_nonterminal.2 (.inl (hgrow₂.keys _ hkey)), _, rfl⟩
        · exact hall t ht

/-! ## Folding -/

/-- **Building at a variable of the grammar.** A change of the entry of such a variable keeps the
state faithful if the alternatives that are new expand to alternatives of that variable.

**Proof sketch.** Each condition holds of the old part because the state was faithful and nothing
was removed, and of the new part by hypothesis. The variable itself is in use, declared and
anchored as a variable of the grammar. -/
theorem Faithful.extend (h : Faithful g f pending b) (hg : g.WellFormed) {left : Name}
    (hleft : left ∈ g.nonterminals) (hgrow : Grows g f b f b') (hnames : b'.names = b.names)
    (hisolated : b'.isolated = b.isolated)
    (hkeys : ∀ v ∈ b'.productions.keys, v = left ∨ v ∈ b.productions.keys)
    (hnew : ∀ v, ∀ right ∈ (b'.toGrammar g).alternatives v,
      right ∈ (b.toGrammar g).alternatives v ∨ v = left ∧ Shape g left right ∧
        substitute f right ∈ g.alternatives left ∧ ∀ s ∈ right, (b.toGrammar g).Declares s) :
    Faithful g f pending b' where
  used v hv := by
    rw [hnames]
    rcases hv with hv | hv | hv
    · exact h.used v (.inl hv)
    · exact h.used v (.inr (.inl hv))
    · rcases hkeys v hv with rfl | hv
      · exact h.used v (.inl hleft)
      · exact h.used v (.inr (.inr hv))
  named v hv := by
    rcases hkeys v hv with rfl | hv
    · exact ⟨hg.disjoint v hleft, fun he => hg.unreserved_nonterminals (he ▸ hleft)⟩
    · exact h.named v hv
  own := h.own
  declares v right hr s hs := by
    refine hgrow.declares ?_
    rcases hnew v right hr with hr | ⟨-, -, -, hdeclared⟩
    · exact h.declares v right hr s hs
    · exact hdeclared s hs
  sound v right hr := by
    rcases hnew v right hr with hr | ⟨rfl, -, hsub, -⟩
    · exact h.sound v right hr
    · exact .inl ⟨hleft, hsub⟩
  unfolds v hv hvold := by
    rcases hkeys v hv with rfl | hv
    · exact absurd hleft hvold
    · exact hgrow.derives (h.unfolds v hv hvold)
  expands v hv s hs := by
    rcases hkeys v hv with rfl | hv
    · rw [h.own v hleft, List.mem_singleton] at hs
      subst hs
      exact hleft
    · exact h.expands v hv s hs
  shape v right hr := by
    rcases hnew v right hr with hr | ⟨rfl, hshape, -, -⟩
    · exact h.shape v right hr
    · exact hshape
  isolated a v hav := by
    rw [hisolated] at hav
    obtain ⟨hv, hfv⟩ := h.isolated a v hav
    exact ⟨hgrow.keys v hv, hfv⟩
  anchored v hv := by
    rcases hkeys v hv with rfl | hv
    · exact ⟨v, .inl hleft, .refl⟩
    · exact (h.anchored v hv).grow hgrow

/-- An entry for a variable of the grammar keeps the state faithful: it adds no alternative. -/
lemma Faithful.declare (h : Faithful g f pending b) (hg : g.WellFormed) {left : Name}
    (hleft : left ∈ g.nonterminals) :
    Faithful g f pending (b.declare left) ∧ Grows g f b f (b.declare left) := by
  have hgrow : Grows g f b f (b.declare left) :=
    { alternatives := fun v r hr => mem_alternatives_declare.2 hr
      keys := fun v hv => mem_keys_declare.2 (.inr hv)
      used := fun v hv => hv
      agree := fun v hv => rfl }
  refine ⟨h.extend hg hleft hgrow rfl rfl (fun v hv => mem_keys_declare.1 hv) ?_, hgrow⟩
  exact fun v r hr => .inl (mem_alternatives_declare.1 hr)

/-- **An alternative of a variable of the grammar** keeps the state faithful, and leaves nothing
pending of what occurs in it, since that variable uses it now. -/
lemma Faithful.add {right : List Symbol} (h : Faithful g f right b) (hg : g.WellFormed)
    {left : Name} (hleft : left ∈ g.nonterminals) (hshape : Shape g left right)
    (hsub : substitute f right ∈ g.alternatives left)
    (hright : ∀ s ∈ right, (b.toGrammar g).Declares s) :
    Faithful g f [] (b.add left right) ∧ Grows g f b f (b.add left right) := by
  have hgrow : Grows g f b f (b.add left right) :=
    { alternatives := fun v r hr => mem_alternatives_add.2 (.inl hr)
      keys := fun v hv => mem_keys_add.2 (.inr hv)
      used := fun v hv => hv
      agree := fun v hv => rfl }
  have hnew : right ∈ ((b.add left right).toGrammar g).alternatives left :=
    mem_alternatives_add.2 (.inr ⟨rfl, rfl⟩)
  have hextend : Faithful g f right (b.add left right) := by
    refine h.extend hg hleft hgrow rfl rfl (fun v hv => mem_keys_add.1 hv) fun v r hr => ?_
    rcases mem_alternatives_add.1 hr with hr | ⟨rfl, rfl⟩
    · exact .inl hr
    · exact .inr ⟨rfl, hshape, hsub, hright⟩
  refine ⟨hextend.replacePending fun u hu => ?_, hgrow⟩
  exact ⟨left, .inl hleft, .single ⟨right, hnew, hu⟩⟩

/-- **Covered rules** have a counterpart that expands to them. -/
def Covered (g : Grammar) (f : Name → List Symbol) (b : Binarization) (r : Rule) : Prop :=
  ∃ right ∈ (b.toGrammar g).alternatives r.left, substitute f right = r.right

/-- Covered rules stay covered: the counterpart is still there, and expands to the same sequence. -/
lemma Faithful.covered (h : Faithful g f pending b) (hgrow : Grows g f b f' b') {r : Rule}
    (hr : Covered g f b r) : Covered g f' b' r := by
  obtain ⟨right, hright, hsub⟩ := hr
  refine ⟨right, hgrow.alternatives _ right hright, ?_⟩
  rw [h.substitute_eq hgrow (h.declares _ right hright), hsub]

/-- **A variable for a pair.** The first two variables of a pending sequence become the alternative
of a new variable, which uses them and is pending in their place. The sequence that results has the
same expansion.

**Proof sketch.** The new variable stands for the expansion of the pair. So the first two variables
are anchored by it and need not be pending any more; the rest is in use and stands for what it
stood for. -/
lemma Faithful.chain {x y : Name} {rest : List Symbol}
    (h : Faithful g f (.nonterminal x :: .nonterminal y :: rest) b) (stem : Name)
    (hdeclared : ∀ s ∈ .nonterminal x :: .nonterminal y :: rest, (b.toGrammar g).Declares s) :
    ∃ f', Faithful g f' (.nonterminal (b.fresh stem).1 :: rest)
        (b.introduce stem [.nonterminal x, .nonterminal y]) ∧
      Grows g f b f' (b.introduce stem [.nonterminal x, .nonterminal y]) ∧
      substitute f' (.nonterminal (b.fresh stem).1 :: rest) =
        substitute f (.nonterminal x :: .nonterminal y :: rest) := by
  have hpair : ∀ s ∈ [Symbol.nonterminal x, .nonterminal y], (b.toGrammar g).Declares s :=
    fun s hs => hdeclared s (List.mem_append_left rest hs)
  have hrest : ∀ s ∈ rest, (b.toGrammar g).Declares s :=
    fun s hs => hdeclared s (List.mem_append_right [_, _] hs)
  obtain ⟨f', hfaithful, hgrow, hnew⟩ := h.introduce stem _ hpair (List.cons_ne_nil _ _) (.pair x y)
  refine ⟨f', hfaithful.replacePending fun u hu => ?_, hgrow, ?_⟩
  · have huses : .nonterminal u ∈ [Symbol.nonterminal x, .nonterminal y] →
        Anchored g (.nonterminal (b.fresh stem).1 :: rest)
          (b.introduce stem [.nonterminal x, .nonterminal y]) u := fun hu =>
      ⟨_, .inr List.mem_cons_self, .single ⟨_, mem_alternatives_introduce.2 (.inr ⟨rfl, rfl⟩), hu⟩⟩
    rcases List.mem_cons.1 hu with hu | hu
    · exact ⟨u, .inr (List.mem_cons.2 (.inl hu)), .refl⟩
    · rcases (List.mem_append (s := [Symbol.nonterminal x, .nonterminal y])).1 hu with hu | hu
      · exact huses hu
      · exact ⟨u, .inr (List.mem_cons_of_mem _ hu), .refl⟩
  · rw [substitute_cons, Symbol.substitute_nonterminal, hnew, h.substitute_eq hgrow hrest,
      ← substitute_append]
    rfl

/-- **Folding** of a sequence of declared variables leads to a counterpart of what it expands to.

**Proof sketch.** As long as there are more than two variables, a variable for the first two of them
makes the sequence shorter and keeps its expansion. A pair is added to the left-hand side, which is
a variable of the grammar. -/
theorem Faithful.fold {right : List Symbol} (h : Faithful g f right b) (hg : g.WellFormed)
    {left : Name} (hleft : left ∈ g.nonterminals) (hlen : 2 ≤ right.length)
    (hright : ∀ s ∈ right, (b.toGrammar g).Declares s ∧ ∃ v, s = .nonterminal v)
    (hsub : substitute f right ∈ g.alternatives left) :
    ∃ f', Faithful g f' [] (b.fold left right) ∧ Grows g f b f' (b.fold left right) ∧
      Covered g f' (b.fold left right) ⟨left, substitute f right⟩ := by
  fun_induction Binarization.fold b left right generalizing f with
  | case1 b x y z right v b₁ hv ih =>
    obtain ⟨rfl, rfl⟩ : v = (b.fresh b.naming.chainStem).1 ∧ b₁ = (b.fresh b.naming.chainStem).2 :=
      by simp [hv]
    obtain ⟨-, ux, rfl⟩ := hright x (by simp)
    obtain ⟨-, uy, rfl⟩ := hright y (by simp)
    obtain ⟨f₁, hfaithful, hgrow, hsub₁⟩ := h.chain b.naming.chainStem fun s hs => (hright s hs).1
    have hright₁ : ∀ s ∈ .nonterminal (b.fresh b.naming.chainStem).1 :: z :: right,
        ((b.introduce b.naming.chainStem [.nonterminal ux, .nonterminal uy]).toGrammar g).Declares s
          ∧ ∃ v, s = .nonterminal v := by
      intro s hs
      rcases List.mem_cons.1 hs with rfl | hs
      · exact ⟨declares_nonterminal.2 (.inl (mem_keys_introduce.2 (.inl rfl))), _, rfl⟩
      · exact (hright s (List.mem_append_right [_, _] hs)).imp_left hgrow.declares
    obtain ⟨f₂, hfaithful₂, hgrow₂, hcovered⟩ :=
      ih hfaithful (by simp) hright₁ (hsub₁.symm ▸ hsub)
    exact ⟨f₂, hfaithful₂, hgrow.trans hgrow₂, hsub₁ ▸ hcovered⟩
  | case2 b right hshort =>
    match right, hshort, hlen with
    | [x, y], _, _ =>
      obtain ⟨-, ux, rfl⟩ := hright x (by simp)
      obtain ⟨-, uy, rfl⟩ := hright y (by simp)
      obtain ⟨hfaithful, hgrow⟩ := h.add hg hleft (.pair ux uy) hsub fun s hs => (hright s hs).1
      exact ⟨f, hfaithful, hgrow, _, mem_alternatives_add.2 (.inr ⟨rfl, rfl⟩), rfl⟩
    | x :: y :: z :: right, hshort, _ => exact absurd rfl (hshort x y z right)

/-! ## All alternatives -/

/-- **The binary form of an alternative** is its counterpart.

**Proof sketch.** An alternative of fewer than two symbols is added as it is; its variables stand
for themselves. In a longer one the terminals are isolated first, and what results is folded. -/
theorem Faithful.addBinary (h : Faithful g f [] b) (hg : g.WellFormed) {left : Name}
    {right : List Symbol} (hr : right ∈ g.alternatives left) :
    ∃ f', Faithful g f' [] (b.addBinary left right) ∧ Grows g f b f' (b.addBinary left right) ∧
      Covered g f' (b.addBinary left right) ⟨left, right⟩ := by
  have hleft : left ∈ g.nonterminals := hg.mem_nonterminals hr
  unfold Binarization.addBinary
  split
  · next hshort =>
    have hsub : substitute f right = right :=
      substitute_eq_self fun v hv => h.own v (hg.declares left right hr _ hv)
    have hdeclared : ∀ s ∈ right, (b.toGrammar g).Declares s := by
      intro s hs
      have := hg.declares left right hr s hs
      cases s with
      | terminal | epsilon => exact this
      | nonterminal v => exact declares_nonterminal.2 (.inr this)
    have hpending : Faithful g f right b := h.replacePending fun u hu => absurd hu (by simp)
    obtain ⟨hfaithful, hgrow⟩ := hpending.add hg hleft (.short hr hshort) (hsub.symm ▸ hr) hdeclared
    exact ⟨f, hfaithful, hgrow, right, mem_alternatives_add.2 (.inr ⟨rfl, rfl⟩), hsub⟩
  · next hlong =>
    obtain ⟨f₁, hfaithful₁, hgrow₁, hsub, hlen, hall⟩ := h.isolateAll (hg.declares left right hr)
    rw [List.append_nil] at hfaithful₁
    obtain ⟨f₂, hfaithful₂, hgrow₂, hcovered⟩ :=
      hfaithful₁.fold hg hleft (by omega) hall (hsub.symm ▸ hr)
    rw [hsub] at hcovered
    exact ⟨f₂, hfaithful₂, hgrow₁.trans hgrow₂, hcovered⟩

/-- **Many steps.** If each step covers some rules, then all of them cover all of these rules.

**Proof sketch.** Induction on the items: what the first step covers stays covered by the later
ones. -/
lemma Faithful.foldl {ι : Type} (step : Binarization → ι → Binarization) (owes : ι → Rule → Prop)
    (items : List ι) (hstep : ∀ f b, ∀ i ∈ items, Faithful g f [] b → ∃ f',
      Faithful g f' [] (step b i) ∧ Grows g f b f' (step b i) ∧
        ∀ r, owes i r → Covered g f' (step b i) r)
    (h : Faithful g f [] b) :
    ∃ f', Faithful g f' [] (items.foldl step b) ∧ Grows g f b f' (items.foldl step b) ∧
      ∀ i ∈ items, ∀ r, owes i r → Covered g f' (items.foldl step b) r := by
  induction items generalizing f b with
  | nil => exact ⟨f, h, .refl g f b, by simp⟩
  | cons i items ih =>
    obtain ⟨f₁, hfaithful₁, hgrow₁, hcovered₁⟩ := hstep f b i List.mem_cons_self h
    obtain ⟨f₂, hfaithful₂, hgrow₂, hcovered₂⟩ :=
      ih (fun f b j hj => hstep f b j (List.mem_cons_of_mem _ hj)) hfaithful₁
    refine ⟨f₂, hfaithful₂, hgrow₁.trans hgrow₂, fun j hj r hr => ?_⟩
    rcases List.mem_cons.1 hj with rfl | hj
    · exact hfaithful₁.covered hgrow₂ (hcovered₁ r hr)
    · exact hcovered₂ j hj r hr

/-- **The binary forms of all alternatives of a variable** are their counterparts. The variable is
given its entry first, and then each alternative is one step. -/
lemma Faithful.addEntry (h : Faithful g f [] b) (hg : g.WellFormed) {left : Name}
    {rights : SortedSet (List Symbol)} (hrights : g.productions.get? left = some rights) :
    ∃ f', Faithful g f' [] (b.addEntry left rights) ∧ Grows g f b f' (b.addEntry left rights) ∧
      ∀ right ∈ rights, Covered g f' (b.addEntry left rights) ⟨left, right⟩ := by
  have hleft : left ∈ g.nonterminals :=
    hg.left_mem left (by simp [SortedMap.mem_keys_iff_isSome, hrights])
  obtain ⟨hfaithful, hgrow⟩ := h.declare hg hleft
  obtain ⟨f', hfaithful', hgrow', hcovered⟩ := hfaithful.foldl
    (fun b right => b.addBinary left right) (fun right r => r = ⟨left, right⟩)
    rights.toList fun f b right hright h => by
      obtain ⟨f', hfaithful', hgrow', hcovered⟩ :=
        h.addBinary hg (Grammar.mem_alternatives.2 ⟨rights, hrights, hright⟩)
      exact ⟨f', hfaithful', hgrow', fun r hr => hr ▸ hcovered⟩
  exact ⟨f', hfaithful', hgrow.trans hgrow', fun right hright => hcovered right hright _ rfl⟩

/-- In the beginning there are no left-hand sides. -/
@[simp] lemma notMem_keys_ofGrammar (g : Grammar) (naming : Naming) (v : Name) :
    v ∉ (ofGrammar g naming).productions.keys := by
  simp [ofGrammar, SortedMap.mem_keys_iff_isSome]

/-- In the beginning nothing has been built, and every variable stands for itself. -/
lemma faithful_ofGrammar (g : Grammar) (naming : Naming) :
    Faithful g (fun v => [.nonterminal v]) [] (ofGrammar g naming) where
  used v hv := FreshNames.mem_used_ofGrammar.2 (by simpa using hv)
  named v hv := absurd hv (by simp)
  own v _ := rfl
  declares v right hr := absurd hr (by simp [Grammar.alternatives, toGrammar, ofGrammar])
  sound v right hr := absurd hr (by simp [Grammar.alternatives, toGrammar, ofGrammar])
  unfolds v hv := absurd hv (by simp)
  expands v hv := absurd hv (by simp)
  shape v right hr := absurd hr (by simp [Grammar.alternatives, toGrammar, ofGrammar])
  isolated a v hv := absurd hv (by simp [ofGrammar])
  anchored v hv := absurd hv (by simp)

/-- **A binarization is faithful and covers all rules.**

**Proof sketch.** Each entry of the productions is one step, which covers the rules of its
left-hand side (`Faithful.addEntry`); all rules are covered in the end, since every one belongs to
an entry. -/
theorem exists_faithful (hg : g.WellFormed) (naming : Naming) :
    ∃ f b, g.binarize naming = toGrammar b g ∧ Faithful g f [] b ∧
      ∀ r : Rule, r.right ∈ g.alternatives r.left → Covered g f b r := by
  obtain ⟨f, hfaithful, -, hcovered⟩ := (faithful_ofGrammar g naming).foldl
    (fun b entry => b.addEntry entry.1 entry.2)
    (fun entry r => r.left = entry.1 ∧ r.right ∈ entry.2)
    g.productions.toList fun f b entry hentry h => by
      obtain ⟨f', hfaithful', hgrow', hcovered⟩ := h.addEntry hg (SortedMap.mem_toList.1 hentry)
      refine ⟨f', hfaithful', hgrow', ?_⟩
      rintro ⟨left, right⟩ ⟨rfl, hright⟩
      exact hcovered right hright
  refine ⟨f, _, rfl, hfaithful, fun r hr => ?_⟩
  obtain ⟨rights, hrights, hright⟩ := Grammar.mem_alternatives.1 hr
  exact hcovered (r.left, rights) (SortedMap.mem_toList.2 hrights) r ⟨rfl, hright⟩

end Binarization

end ChomskyForm
