import ChomskyForm.Grammar.WellFormed

set_option autoImplicit false
set_option relaxedAutoImplicit false

/-!
# Renaming

The names of a grammar are replaced throughout: those of variables by one function, those of
terminals by another. Variables that get the same name share their alternatives.

## Main definitions

* `ChomskyForm.Symbol.rename`: a symbol with its name replaced.
* `ChomskyForm.Grammar.rename`: a grammar with all names replaced.

## Main results

* `ChomskyForm.Grammar.mem_alternatives_rename`: the alternatives after a renaming.
* `ChomskyForm.Grammar.rename_rename`, `ChomskyForm.Grammar.rename_id`: renamings compose.
* `ChomskyForm.Grammar.rename_congr`: what a renaming does depends on the declared names only.
-/

namespace ChomskyForm

/-! ## Symbols -/

namespace Symbol

variable {f t f' t' : Name → Name}

/-- **Renaming of a symbol.** The kind stays, and the mark has no name to be replaced. -/
def rename (f t : Name → Name) : Symbol → Symbol
  | terminal a => terminal (t a)
  | nonterminal v => nonterminal (f v)
  | epsilon => epsilon

/-- To rename a symbol twice is to rename it by the compositions. -/
theorem rename_rename (s : Symbol) : (s.rename f t).rename f' t' = s.rename (f' ∘ f) (t' ∘ t) := by
  cases s <;> rfl

/-- To rename nothing leaves a symbol as it is. -/
theorem rename_id (s : Symbol) : s.rename id id = s := by
  cases s <;> rfl

/-- A renamed symbol is a nonterminal exactly when the symbol was one. -/
theorem rename_eq_nonterminal {s : Symbol} {v : Name} :
    s.rename f t = nonterminal v ↔ ∃ u, s = nonterminal u ∧ f u = v := by
  cases s <;> simp [rename]

/-- A renamed symbol is a terminal exactly when the symbol was one. -/
theorem rename_eq_terminal {s : Symbol} {a : Name} :
    s.rename f t = terminal a ↔ ∃ b, s = terminal b ∧ t b = a := by
  cases s <;> simp [rename]

/-- The variables of a renamed sequence are the renamed variables of the sequence. -/
theorem nonterminal_mem_map_rename {right : List Symbol} {v : Name} :
    nonterminal v ∈ right.map (rename f t) ↔ ∃ u, nonterminal u ∈ right ∧ f u = v := by
  simp only [List.mem_map, rename_eq_nonterminal]
  constructor
  · rintro ⟨_, hs, u, rfl, rfl⟩
    exact ⟨u, hs, rfl⟩
  · rintro ⟨u, hu, rfl⟩
    exact ⟨_, hu, u, rfl, rfl⟩

/-- The terminals of a renamed sequence are the renamed terminals of the sequence. -/
theorem terminal_mem_map_rename {right : List Symbol} {a : Name} :
    terminal a ∈ right.map (rename f t) ↔ ∃ b, terminal b ∈ right ∧ t b = a := by
  simp only [List.mem_map, rename_eq_terminal]
  constructor
  · rintro ⟨_, hs, b, rfl, rfl⟩
    exact ⟨b, hs, rfl⟩
  · rintro ⟨b, hb, rfl⟩
    exact ⟨_, hb, b, rfl, rfl⟩

end Symbol

/-! ## Grammars -/

namespace Grammar

variable {g : Grammar} {f t f' t' : Name → Name}

/-- **Renaming.** The variables are renamed by `f` and the terminals by `t`. The functions need not
be injective: variables that get one name pool their alternatives. What keeps the language is an
injective renaming (see `Proofs.Equivariance`). -/
def rename (g : Grammar) (f t : Name → Name) : Grammar where
  nonterminals := g.nonterminals.map f
  terminals := g.terminals.map t
  start := f g.start
  productions := SortedMap.ofKeys (g.productions.keys.map f) fun v =>
    SortedSet.ofList ((g.rules.filter fun r => f r.left = v).map fun r =>
      r.right.map (Symbol.rename f t))

/-- The start symbol is renamed as a variable. -/
@[simp] theorem start_rename : (g.rename f t).start = f g.start := rfl

/-- The variables after a renaming are the renamed variables. -/
@[simp] theorem mem_nonterminals_rename {v : Name} :
    v ∈ (g.rename f t).nonterminals ↔ ∃ u ∈ g.nonterminals, f u = v :=
  SortedSet.mem_map

/-- The terminals after a renaming are the renamed terminals. -/
@[simp] theorem mem_terminals_rename {a : Name} :
    a ∈ (g.rename f t).terminals ↔ ∃ b ∈ g.terminals, t b = a :=
  SortedSet.mem_map

/-- The left-hand sides with an entry are renamed, those with an empty entry included. -/
theorem keys_rename : (g.rename f t).productions.keys = g.productions.keys.map f :=
  SortedMap.keys_ofKeys

/-- A left-hand side after a renaming is the new name of one before it. -/
@[simp] theorem mem_keys_rename {v : Name} :
    v ∈ (g.rename f t).productions.keys ↔ ∃ u ∈ g.productions.keys, f u = v := by
  rw [keys_rename, SortedSet.mem_map]

/-- **The alternatives after a renaming** are the renamed alternatives of all variables that get
the name in question.

**Proof sketch.** The entry of a name is tabulated from the rules whose left-hand side gets this
name, and rules are alternatives of their left-hand sides. Conversely, a variable with an
alternative has an entry, so its new name is one of the tabulated ones. -/
@[simp] theorem mem_alternatives_rename {v : Name} {right : List Symbol} :
    right ∈ (g.rename f t).alternatives v ↔
      ∃ u, f u = v ∧ ∃ right' ∈ g.alternatives u, right'.map (Symbol.rename f t) = right := by
  rw [mem_alternatives, rename]
  simp only [SortedMap.get?_ofKeys, SortedSet.mem_map]
  constructor
  · rintro ⟨rights, hrights, hr⟩
    split at hrights
    · obtain rfl := Option.some.inj hrights
      simp only [SortedSet.mem_ofList, List.mem_map, List.mem_filter, decide_eq_true_eq] at hr
      obtain ⟨r, ⟨hrule, rfl⟩, rfl⟩ := hr
      exact ⟨r.left, rfl, r.right, mem_rules.1 hrule, rfl⟩
    · cases hrights
  · rintro ⟨u, rfl, right', hr, rfl⟩
    rw [if_pos ⟨u, mem_keys_of_mem_alternatives hr, rfl⟩]
    refine ⟨_, rfl, ?_⟩
    simp only [SortedSet.mem_ofList, List.mem_map, List.mem_filter, decide_eq_true_eq]
    exact ⟨⟨u, right'⟩, ⟨mem_rules.2 hr, rfl⟩, rfl⟩

/-- **Renamings compose.** The order of names may change with each of them, but the sets are put in
order again, so that only membership has to be compared. -/
theorem rename_rename (g : Grammar) :
    (g.rename f t).rename f' t' = g.rename (f' ∘ f) (t' ∘ t) := by
  have hkeys : ((g.rename f t).rename f' t').productions.keys =
      (g.rename (f' ∘ f) (t' ∘ t)).productions.keys := by
    rw [keys_rename, keys_rename, keys_rename, SortedSet.map_map]
  have hnonterminals : ((g.rename f t).rename f' t').nonterminals =
      (g.rename (f' ∘ f) (t' ∘ t)).nonterminals := SortedSet.map_map
  refine ext_of_mem (fun v => by rw [hnonterminals]) SortedSet.map_map rfl
    (fun v => by rw [hkeys]) fun v right => ?_
  simp only [mem_alternatives_rename, Function.comp_apply]
  constructor
  · rintro ⟨_, rfl, _, ⟨u, rfl, right', hr, rfl⟩, rfl⟩
    exact ⟨u, rfl, right', hr, by simp [Symbol.rename_rename]⟩
  · rintro ⟨u, rfl, right', hr, rfl⟩
    exact ⟨_, rfl, _, ⟨u, rfl, right', hr, rfl⟩, by simp [Symbol.rename_rename]⟩

/-- To rename nothing changes nothing. -/
theorem rename_id (g : Grammar) : g.rename id id = g := by
  refine ext_of_mem (fun v => ?_) (SortedSet.ext fun a => ?_) rfl (fun v => ?_) fun v right => ?_
  · simp
  · simp
  · simp
  · have hid : ∀ form : List Symbol, form.map (Symbol.rename id id) = form := fun form =>
      (List.map_congr_left fun s _ => s.rename_id).trans form.map_id
    simp [hid]

/-- **What a renaming does** depends on the declared names only.

**Proof sketch.** In a well-formed grammar every symbol of an alternative is declared, so functions
that agree on the declarations rename every alternative in the same way; every left-hand side is a
variable, so they rename these in the same way too. The rest is extensionality, part by part. -/
theorem rename_congr (hg : g.WellFormed) (hf : ∀ v ∈ g.nonterminals, f v = f' v)
    (ht : ∀ a ∈ g.terminals, t a = t' a) : g.rename f t = g.rename f' t' := by
  have hform : ∀ v, ∀ right ∈ g.alternatives v,
      right.map (Symbol.rename f t) = right.map (Symbol.rename f' t') := by
    intro v right hr
    refine List.map_congr_left fun s hs => ?_
    have hdeclared := hg.declares v right hr s hs
    cases s with
    | terminal a => exact congrArg Symbol.terminal (ht a hdeclared)
    | nonterminal u => exact congrArg Symbol.nonterminal (hf u hdeclared)
    | epsilon => rfl
  have hleft : ∀ v, ∀ right ∈ g.alternatives v, f v = f' v :=
    fun v _ hr => hf v (hg.mem_nonterminals hr)
  refine ext_of_mem (fun v => ?_) (SortedSet.ext fun a => ?_) (hf _ hg.start_mem) (fun v => ?_)
    fun v right => ?_
  · simp only [mem_nonterminals_rename]
    exact exists_congr fun u => and_congr_right fun hu => by rw [hf u hu]
  · simp only [mem_terminals_rename]
    exact exists_congr fun b => and_congr_right fun hb => by rw [ht b hb]
  · simp only [mem_keys_rename]
    exact exists_congr fun u => and_congr_right fun hu => by rw [hf u (hg.left_mem u hu)]
  · simp only [mem_alternatives_rename]
    constructor
    · rintro ⟨u, rfl, right', hr, rfl⟩
      exact ⟨u, (hleft u right' hr).symm, right', hr, (hform u right' hr).symm⟩
    · rintro ⟨u, rfl, right', hr, rfl⟩
      exact ⟨u, hleft u right' hr, right', hr, hform u right' hr⟩

end Grammar

end ChomskyForm
