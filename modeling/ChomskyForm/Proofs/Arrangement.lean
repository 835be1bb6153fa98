import Mathlib.Data.List.GetD
import Mathlib.Data.Set.Function
import ChomskyForm.Proofs.Expansion

set_option autoImplicit false
set_option relaxedAutoImplicit false

/-!
# What a binarization builds, up to names

Every new variable of a binarization has a role: it stands for a terminal, or for the first symbols
of a long alternative. The roles are given by the grammar alone, and so is what is built, except for
the names. A naming of the roles says which variable has which role; the order in which the names
are drawn, the stems and the numbers have no other effect.

## Main definitions

* `ChomskyForm.Role`: the roles of new variables.
* `ChomskyForm.Rule.Calls`: the roles that the binary form of a rule makes use of.
* `ChomskyForm.Rule.binary`: the right-hand side that takes the place of that of a rule.
* `ChomskyForm.Grammar.Arrangement`: the binary form of a grammar, for a naming of the roles.

## Main results

* `ChomskyForm.Binarization.Arranged.fold`: the folding of a right-hand side.
* `ChomskyForm.Binarization.Arranged.addBinary`: the binary form of an alternative.
* `ChomskyForm.Grammar.exists_arrangement`: a binarization leads to the binary form, for some
  naming of the roles.
-/

namespace ChomskyForm

/-! ## Roles -/

/-- **The roles of new variables.** A role says what a variable stands for, in terms of the grammar
alone; no name of a new variable occurs in it. -/
inductive Role where
  /-- The variable stands for a terminal. -/
  | letter (a : Name)
  /-- The variable stands for the first `k + 2` symbols of the right-hand side of a rule. -/
  | link (r : Rule) (k : Nat)
deriving DecidableEq, Inhabited

/-- The symbol that takes the place of a single one: terminals are isolated, all others stay. -/
def Symbol.isolate (ν : Role → Name) : Symbol → Symbol
  | terminal a => nonterminal (ν (.letter a))
  | s => s

/-- The names of other roles have no effect on isolation. -/
lemma Symbol.isolate_congr {ν ν' : Role → Name} {s : Symbol}
    (h : ∀ a, s = terminal a → ν' (.letter a) = ν (.letter a)) : s.isolate ν' = s.isolate ν := by
  cases s with
  | terminal a => exact congrArg nonterminal (h a rfl)
  | nonterminal | epsilon => rfl

namespace Rule

/-- The symbol that takes the place of the first `k + 1` symbols of a right-hand side: of the first
one by itself, and of more than one a variable. -/
def comb (ν : Role → Name) (r : Rule) : Nat → Symbol
  | 0 => (r.right.getD 0 .epsilon).isolate ν
  | k + 1 => .nonterminal (ν (.link r k))

/-- The pair that takes the place of the first `k + 2` symbols of a right-hand side. -/
def pair (ν : Role → Name) (r : Rule) (k : Nat) : List Symbol :=
  [r.comb ν k, (r.right.getD (k + 1) .epsilon).isolate ν]

/-- **The binary form of a right-hand side.** Short ones stay as they are; of a longer one the last
pair is left. -/
def binary (ν : Role → Name) (r : Rule) : List Symbol :=
  if r.right.length < 2 then r.right else r.pair ν (r.right.length - 2)

/-- The roles that the pair for the first `k + 2` symbols makes use of, directly or through
others. -/
def CallsBelow (r : Rule) (k : Nat) : Role → Prop
  | .letter a => .terminal a ∈ r.right
  | .link r' j => r' = r ∧ j < k

/-- **The roles that the binary form of a rule makes use of**, directly or through others. -/
def Calls (r : Rule) (ρ : Role) : Prop :=
  2 ≤ r.right.length ∧ r.CallsBelow (r.right.length - 2) ρ

/-- The pair for one more symbol makes use of one more variable, that of the pair before it. -/
lemma callsBelow_succ {r : Rule} {k : Nat} {ρ : Role} :
    r.CallsBelow (k + 1) ρ ↔ ρ = .link r k ∨ r.CallsBelow k ρ := by
  cases ρ with
  | letter a => simp [CallsBelow]
  | link r' j =>
    simp only [CallsBelow, Role.link.injEq, Nat.lt_succ_iff_lt_or_eq, ← and_or_left, or_comm]

/-- The roles that are called are those that the last pair makes use of. -/
lemma calls_iff {r : Rule} {k : Nat} (hk : r.right.length = k + 2) {ρ : Role} :
    r.Calls ρ ↔ r.CallsBelow k ρ := by
  rw [Calls, hk]
  exact and_iff_right (Nat.le_add_left 2 k)

/-- The binary form of a right-hand side of two or more symbols is the last pair. -/
lemma binary_eq_pair (ν : Role → Name) {r : Rule} {k : Nat} (hk : r.right.length = k + 2) :
    r.binary ν = r.pair ν k := by
  rw [binary, hk, if_neg (by omega), Nat.add_sub_cancel]

/-- A symbol at some position of a right-hand side is one of its symbols. The mark for the empty
word stands for positions beyond the end, so it has to be excluded. -/
lemma mem_right_of_getD {r : Rule} {i : Nat} {s : Symbol} (h : r.right.getD i .epsilon = s)
    (hs : s ≠ .epsilon) : s ∈ r.right := by
  have hi : i < r.right.length := by
    by_contra hi
    rw [List.getD_eq_default _ _ (Nat.le_of_not_lt hi)] at h
    exact hs h.symm
  rw [List.getD_eq_getElem _ _ hi] at h
  exact List.mem_of_getElem h

/-- **The terminals of a right-hand side and the variables for fewer symbols are enough for a
pair.** Namings that agree on these give the same pair. -/
lemma pair_congr {ν ν' : Role → Name} {r : Rule} {k : Nat}
    (h : ∀ ρ, r.CallsBelow k ρ → ν' ρ = ν ρ) : r.pair ν' k = r.pair ν k := by
  have hisolate : ∀ i, (r.right.getD i .epsilon).isolate ν' =
      (r.right.getD i .epsilon).isolate ν := fun i =>
    Symbol.isolate_congr fun a ha => h (.letter a) (mem_right_of_getD ha (by simp))
  have hcomb : r.comb ν' k = r.comb ν k := by
    cases k with
    | zero => exact hisolate 0
    | succ k => exact congrArg Symbol.nonterminal (h (.link r k) ⟨rfl, Nat.lt_succ_self k⟩)
  rw [pair, pair, hcomb, hisolate]

/-- The roles that are called are enough for the binary form. -/
lemma binary_congr {ν ν' : Role → Name} {r : Rule} (h : ∀ ρ, r.Calls ρ → ν' ρ = ν ρ) :
    r.binary ν' = r.binary ν := by
  unfold binary
  split
  · rfl
  · next hlong => exact pair_congr fun ρ hρ => h ρ ⟨by omega, hρ⟩

end Rule

namespace Role

/-- **The only alternative** of the variable with a role. -/
def right (ν : Role → Name) : Role → List Symbol
  | letter a => [.terminal a]
  | link r k => r.pair ν k

/-- The roles that the alternative of a role makes use of, directly or through others. -/
def Calls : Role → Role → Prop
  | letter _, _ => False
  | link r k, ρ => r.CallsBelow k ρ

/-- The roles that the alternative of a role makes use of are enough for this alternative. -/
lemma right_congr {ν ν' : Role → Name} {ρ : Role} (h : ∀ ρ', ρ.Calls ρ' → ν' ρ' = ν ρ') :
    ρ.right ν' = ρ.right ν := by
  cases ρ with
  | letter a => rfl
  | link r k => exact Rule.pair_congr h

end Role

/-! ## The binary form of a grammar -/

namespace Grammar

/-- **The roles that a grammar calls for.** -/
def Calls (g : Grammar) (ρ : Role) : Prop := ∃ r : Rule, r.right ∈ g.alternatives r.left ∧ r.Calls ρ

variable {g : Grammar}

/-- **What the alternative of a role makes use of is called for as well.** A rule that calls for a
pair of `k + 2` symbols calls for all shorter ones too. -/
lemma Calls.of_link {r : Rule} {k : Nat} (h : g.Calls (.link r k)) {ρ : Role}
    (hρ : r.CallsBelow k ρ) : g.Calls ρ := by
  obtain ⟨r', hr', hlong, rfl, hk⟩ := h
  refine ⟨r, hr', hlong, ?_⟩
  cases ρ with
  | letter a => exact hρ
  | link r' j => exact ⟨hρ.1, hρ.2.trans hk⟩

/-- The rule of a link is a rule of the grammar. -/
lemma Calls.mem_alternatives {r : Rule} {k : Nat} (h : g.Calls (.link r k)) :
    r.right ∈ g.alternatives r.left := by
  obtain ⟨r', hr', -, rfl, -⟩ := h
  exact hr'

/-- **The binary form of a grammar**, for a naming of the roles that it calls for. Everything about
it is said in terms of the grammar and the naming, so that it does not depend on how it was
built. -/
structure Arrangement (g : Grammar) (ν : Role → Name) (h : Grammar) : Prop where
  /-- The start symbol is the same. -/
  start : h.start = g.start
  /-- The terminals are the same. -/
  terminals : h.terminals = g.terminals
  /-- New variables are not variables of the grammar. -/
  new : ∀ ρ, g.Calls ρ → ν ρ ∉ g.nonterminals
  /-- Different roles have different variables. -/
  injOn : Set.InjOn ν {ρ | g.Calls ρ}
  /-- The variables are the old ones and the new ones. -/
  nonterminals : ∀ v, v ∈ h.nonterminals ↔ v ∈ g.nonterminals ∨ ∃ ρ, g.Calls ρ ∧ ν ρ = v
  /-- The left-hand sides are the old ones and the new variables. -/
  keys : ∀ v, v ∈ h.productions.keys ↔ v ∈ g.productions.keys ∨ ∃ ρ, g.Calls ρ ∧ ν ρ = v
  /-- The alternatives are the binary forms of the old ones and those of the roles. -/
  alternatives : ∀ v right, right ∈ h.alternatives v ↔
    (∃ r : Rule, r.right ∈ g.alternatives r.left ∧ r.left = v ∧ r.binary ν = right) ∨
      ∃ ρ, g.Calls ρ ∧ ν ρ = v ∧ ρ.right ν = right

end Grammar

/-! ## The invariant of a binarization -/

namespace Binarization

variable {g : Grammar} {b b' : Binarization} {ν ν' : Role → Name} {roles : Set Role}
  {lefts : Set Name} {rules : Set Rule}

/-- **Arranged states.** The new variables are those of `roles`, named by `ν`; what has been built
are the alternatives of these roles and the binary forms of `rules`; the variables in `lefts` have
an entry. Two of the conditions say that roles and rules are closed under what they make use of, so
that no alternative that has been built depends on a name yet to be drawn. -/
structure Arranged (g : Grammar) (ν : Role → Name) (roles : Set Role) (lefts : Set Name)
    (rules : Set Rule) (b : Binarization) : Prop where
  /-- The names of the grammar are in use. -/
  used : ∀ v, v ∈ g.nonterminals ∨ v ∈ g.terminals → v ∈ b.names.used
  /-- The names of the roles are in use. -/
  used_role : ∀ ρ ∈ roles, ν ρ ∈ b.names.used
  /-- They are not variables of the grammar. -/
  new : ∀ ρ ∈ roles, ν ρ ∉ g.nonterminals
  /-- Different roles have different names. -/
  injOn : Set.InjOn ν roles
  /-- What is made use of has a name. -/
  closed : ∀ ρ ∈ roles, ∀ ρ', ρ.Calls ρ' → ρ' ∈ roles
  /-- What the binary form of a rule makes use of has a name. -/
  closed_rules : ∀ r ∈ rules, ∀ ρ, r.Calls ρ → ρ ∈ roles
  /-- The variables made for terminals are those of their roles. -/
  isolated : ∀ a v, b.isolated.get? a = some v ↔ .letter a ∈ roles ∧ ν (.letter a) = v
  /-- The left-hand sides. -/
  keys : ∀ v, v ∈ b.productions.keys ↔ v ∈ lefts ∨ ∃ ρ ∈ roles, ν ρ = v
  /-- The alternatives. -/
  alternatives : ∀ v right, right ∈ (b.toGrammar g).alternatives v ↔
    (∃ r ∈ rules, r.left = v ∧ r.binary ν = right) ∨ ∃ ρ ∈ roles, ν ρ = v ∧ ρ.right ν = right

/-! ## New variables -/

/-- The name of a new role has no effect on the other ones. -/
lemma eqOn_update {ρ : Role} (hρ : ρ ∉ roles) (ν : Role → Name) (x : Name) :
    Set.EqOn (Function.update ν ρ x) ν roles := by
  intro ρ' hρ'
  exact Function.update_of_ne (fun heq => hρ (by rwa [heq] at hρ')) _ _

/-- **Only the names of the roles matter.** A naming that agrees with `ν` on the roles serves as
well.

**Proof sketch.** Part by part. For the alternatives this uses that what a role or a rule makes use
of is among the roles, so both namings give the same right-hand side. -/
lemma Arranged.congr (h : Arranged g ν roles lefts rules b) (hagree : Set.EqOn ν' ν roles) :
    Arranged g ν' roles lefts rules b where
  used := h.used
  used_role ρ hρ := by
    rw [hagree hρ]
    exact h.used_role ρ hρ
  new ρ hρ := by
    rw [hagree hρ]
    exact h.new ρ hρ
  injOn := h.injOn.congr hagree.symm
  closed := h.closed
  closed_rules := h.closed_rules
  isolated a v := by
    rw [h.isolated]
    exact and_congr_right fun ha => by rw [hagree ha]
  keys v := by
    rw [h.keys]
    exact or_congr_right (exists_congr fun ρ => and_congr_right fun hρ => by rw [hagree hρ])
  alternatives v right := by
    rw [h.alternatives]
    refine or_congr (exists_congr fun r => and_congr_right fun hr => ?_)
      (exists_congr fun ρ => and_congr_right fun hρ => ?_)
    · rw [Rule.binary_congr fun ρ hρ => hagree (h.closed_rules r hr ρ hρ)]
    · rw [hagree hρ, Role.right_congr fun ρ' hρ' => hagree (h.closed ρ hρ ρ' hρ')]

/-- **A variable for a new role** keeps the state arranged, if there are variables for all that its
alternative makes use of.

**Proof sketch.** The name that is drawn is not in use, so it is not that of another role; and no
alternative that has been built makes use of the new role. -/
theorem Arranged.introduce (h : Arranged g ν roles lefts rules b) {ρ : Role} (hρ : ρ ∉ roles)
    (hcalls : ∀ ρ', ρ.Calls ρ' → ρ' ∈ roles) (stem : Name)
    (hproductions : b'.productions = (b.introduce stem (ρ.right ν)).productions)
    (hnames : b'.names = (b.introduce stem (ρ.right ν)).names)
    (hisolated : ∀ a v, b'.isolated.get? a = some v ↔
      b.isolated.get? a = some v ∨ ρ = .letter a ∧ (b.fresh stem).1 = v) :
    Arranged g (Function.update ν ρ (b.fresh stem).1) (insert ρ roles) lefts rules b' := by
  set x := (b.fresh stem).1 with hx
  set ν' := Function.update ν ρ x with hν'
  have hagree : Set.EqOn ν' ν roles := eqOn_update hρ ν x
  have h' : Arranged g ν' roles lefts rules b := h.congr hagree
  have hself : ν' ρ = x := Function.update_self _ _ _
  have hright : ρ.right ν' = ρ.right ν := Role.right_congr fun ρ' hρ' => hagree (hcalls ρ' hρ')
  have hnew : x ∉ b.names.used := b.names.fresh_notMem stem
  have hused : ∀ v, v ∈ b'.names.used ↔ v = x ∨ v ∈ b.names.used := fun v => by
    rw [hnames, mem_used_introduce]
  have hgrammar : b'.toGrammar g = (b.introduce stem (ρ.right ν)).toGrammar g := by
    simp only [toGrammar, hproductions]
  exact
    { used := fun v hv => (hused v).2 (.inr (h'.used v hv))
      used_role := by
        rintro ρ' (rfl | hρ')
        · exact (hused _).2 (.inl hself)
        · exact (hused _).2 (.inr (h'.used_role ρ' hρ'))
      new := by
        rintro ρ' (rfl | hρ') hv
        · exact hnew (hself ▸ h'.used _ (.inl hv))
        · exact h'.new ρ' hρ' hv
      injOn := by
        refine (Set.injOn_insert hρ).2 ⟨h'.injOn, ?_⟩
        rintro ⟨ρ', hρ', heq⟩
        exact hnew (hself ▸ heq ▸ h'.used_role ρ' hρ')
      closed := by
        rintro ρ' (rfl | hρ') ρ'' hρ''
        · exact .inr (hcalls ρ'' hρ'')
        · exact .inr (h'.closed ρ' hρ' ρ'' hρ'')
      closed_rules := fun r hr ρ' hρ' => .inr (h'.closed_rules r hr ρ' hρ')
      isolated := by
        intro a v
        rw [hisolated, h'.isolated]
        by_cases ha : Role.letter a = ρ
        · subst ha
          simp [hρ, hself]
        · simp [ha, Ne.symm ha]
      keys := by
        intro v
        rw [hproductions, mem_keys_introduce, h'.keys, Set.exists_mem_insert, hself, eq_comm,
          or_left_comm]
      alternatives := by
        intro v right
        rw [hgrammar, mem_alternatives_introduce, h'.alternatives, Set.exists_mem_insert, hself,
          hright, eq_comm (a := v), eq_comm (a := right), or_assoc]
        exact or_congr_right or_comm }

/-! ## Isolation of terminals -/

/-- **The variable of a terminal** gets the role that stands for it.

**Proof sketch.** If the terminal was isolated before, its role is one of the roles and nothing
changes. Otherwise its role is a new one, which makes use of no other (`Arranged.introduce`). -/
lemma Arranged.isolate (h : Arranged g ν roles lefts rules b) (a : Name) :
    ∃ ν', Arranged g ν' (insert (.letter a) roles) lefts rules (b.isolate a).2 ∧
      Set.EqOn ν' ν roles ∧ (b.isolate a).1 = ν' (.letter a) := by
  unfold Binarization.isolate
  split
  · next v hv =>
    obtain ⟨ha, hv⟩ := (h.isolated a v).1 hv
    rw [Set.insert_eq_of_mem ha]
    exact ⟨ν, h, Set.eqOn_refl ν roles, hv.symm⟩
  · next hnone =>
    have ha : .letter a ∉ roles := by
      intro ha
      have hsome := (h.isolated a _).2 ⟨ha, rfl⟩
      rw [hnone] at hsome
      cases hsome
    refine ⟨Function.update ν (.letter a) (b.fresh b.naming.terminalStem).1,
      h.introduce ha (fun _ => False.elim) b.naming.terminalStem rfl rfl ?_,
      eqOn_update ha ν _, ?_⟩
    · intro c v
      have hold : (b.fresh b.naming.terminalStem).2.isolated = b.isolated := rfl
      by_cases hca : c = a
      · subst hca
        simp [SortedMap.get?_insert, add, hold, hnone]
      · simp [SortedMap.get?_insert, add, hold, hca, Ne.symm hca]
    · rw [Function.update_self]

/-- The roles of the terminals of a sequence, one for each terminal however often it occurs. -/
def letters (right : List Symbol) : Set Role := {ρ | ∃ a, .terminal a ∈ right ∧ ρ = .letter a}

/-- **Isolation of all terminals** of a sequence.

**Proof sketch.** Induction on the sequence, with any state to begin with. A terminal at the front
gets its role first; the naming that the rest leads to agrees with it there, since that role is one
of those that the rest begins with. -/
theorem Arranged.isolateAll (h : Arranged g ν roles lefts rules b) (right : List Symbol) :
    ∃ ν', Arranged g ν' (roles ∪ letters right) lefts rules (b.isolateAll right).2 ∧
      Set.EqOn ν' ν roles ∧ (b.isolateAll right).1 = right.map (Symbol.isolate ν') := by
  induction right generalizing ν roles b with
  | nil =>
    have hroles : roles ∪ letters [] = roles := by simp [letters]
    rw [hroles]
    exact ⟨ν, h, Set.eqOn_refl ν roles, rfl⟩
  | cons s right ih =>
    cases s with
    | terminal a =>
      obtain ⟨ν₁, h₁, hagree₁, heq₁⟩ := h.isolate a
      obtain ⟨ν₂, h₂, hagree₂, heq₂⟩ := ih h₁
      have hroles : insert (.letter a) roles ∪ letters right =
          roles ∪ letters (.terminal a :: right) := by
        ext ρ
        simp [letters, or_and_right, exists_or, or_assoc, or_left_comm]
      rw [← hroles]
      refine ⟨ν₂, h₂, fun ρ hρ => (hagree₂ (.inr hρ)).trans (hagree₁ hρ), ?_⟩
      simp only [Binarization.isolateAll, heq₂, List.map_cons, heq₁, Symbol.isolate]
      rw [hagree₂ (.inl rfl)]
    | nonterminal v | epsilon =>
      obtain ⟨ν', h', hagree, heq⟩ := ih h
      refine ⟨ν', by simpa [Binarization.isolateAll, letters] using h', hagree, ?_⟩
      simp only [Binarization.isolateAll, heq, List.map_cons, Symbol.isolate]

/-! ## Folding -/

/-- **An entry** for a variable keeps the state arranged. No alternative is added by it. -/
lemma Arranged.declare (h : Arranged g ν roles lefts rules b) (left : Name) :
    Arranged g ν roles (insert left lefts) rules (b.declare left) where
  used := h.used
  used_role := h.used_role
  new := h.new
  injOn := h.injOn
  closed := h.closed
  closed_rules := h.closed_rules
  isolated := h.isolated
  keys v := by rw [mem_keys_declare, h.keys, Set.mem_insert_iff, or_assoc]
  alternatives v right := by rw [mem_alternatives_declare, h.alternatives]

/-- **An alternative** in its binary form keeps the state arranged, if there are variables for the
roles that it calls. -/
lemma Arranged.add (h : Arranged g ν roles lefts rules b) {r : Rule}
    (hcalls : ∀ ρ, r.Calls ρ → ρ ∈ roles) :
    Arranged g ν roles (insert r.left lefts) (insert r rules) (b.add r.left (r.binary ν)) where
  used := h.used
  used_role := h.used_role
  new := h.new
  injOn := h.injOn
  closed := h.closed
  closed_rules := by
    rintro r' (rfl | hr')
    · exact hcalls
    · exact h.closed_rules r' hr'
  isolated := h.isolated
  keys v := by rw [mem_keys_add, h.keys, Set.mem_insert_iff, or_assoc]
  alternatives v right := by
    rw [mem_alternatives_add, h.alternatives, Set.exists_mem_insert, eq_comm (a := v),
      eq_comm (a := right), or_comm, or_assoc]

/-- What takes the place of a right-hand side when its first `k + 1` symbols have been folded. -/
def rest (ν : Role → Name) (r : Rule) (k : Nat) : List Symbol :=
  r.comb ν k :: (r.right.drop (k + 1)).map (Symbol.isolate ν)

/-- In the beginning all symbols are isolated, and none has been folded. -/
lemma rest_zero {r : Rule} (h : r.right ≠ []) : rest ν r 0 = r.right.map (Symbol.isolate ν) := by
  obtain ⟨s, right, hr⟩ := List.exists_cons_of_ne_nil h
  simp [rest, Rule.comb, hr]

/-- As long as there are symbols left, the next one is isolated. -/
lemma rest_eq_cons {r : Rule} {k : Nat} (hk : k + 1 < r.right.length) :
    rest ν r k = r.comb ν k :: (r.right.getD (k + 1) .epsilon).isolate ν ::
      (r.right.drop (k + 2)).map (Symbol.isolate ν) := by
  rw [rest, List.drop_eq_getElem_cons hk, List.map_cons, List.getD_eq_getElem _ _ hk]

/-- **Folding** of what is left of a right-hand side.

**Proof sketch.** Induction on the number of symbols that are left apart from the last two. One
round makes the variable for one more symbol out of what stands first. -/
theorem Arranged.fold {r : Rule} (n k : Nat) (hlen : k + 2 + n = r.right.length)
    (h : Arranged g ν (roles ∪ {ρ | r.CallsBelow k ρ}) lefts rules b)
    (hroles : ∀ j, .link r j ∉ roles) :
    ∃ ν', Arranged g ν' (roles ∪ {ρ | r.Calls ρ}) (insert r.left lefts) (insert r rules)
      (b.fold r.left (rest ν r k)) := by
  induction n generalizing k b ν with
  | zero =>
    have hk : r.right.length = k + 2 := hlen.symm
    have hfold : b.fold r.left (rest ν r k) = b.add r.left (r.binary ν) := by
      rw [rest_eq_cons (by omega), List.drop_eq_nil_of_le (by omega), Rule.binary_eq_pair ν hk,
        List.map_nil, Binarization.fold]
      · rfl
      · simp
    simp only [Rule.calls_iff hk, hfold]
    exact ⟨ν, h.add fun ρ hρ => .inr ((Rule.calls_iff hk).1 hρ)⟩
  | succ n ih =>
    have hnew : .link r k ∉ roles ∪ {ρ | r.CallsBelow k ρ} := by
      rintro (hm | ⟨-, hlt⟩)
      · exact hroles k hm
      · exact Nat.lt_irrefl k hlt
    have hroles₁ : insert (.link r k) (roles ∪ {ρ | r.CallsBelow k ρ}) =
        roles ∪ {ρ | r.CallsBelow (k + 1) ρ} := by
      ext ρ
      simp [Rule.callsBelow_succ, or_left_comm]
    set ν₁ := Function.update ν (.link r k) (b.fresh b.naming.chainStem).1 with hν₁
    have h₁ : Arranged g ν₁ (insert (.link r k) (roles ∪ {ρ | r.CallsBelow k ρ})) lefts rules
        (b.introduce b.naming.chainStem (r.pair ν k)) :=
      h.introduce hnew (fun ρ hρ => .inr hρ) b.naming.chainStem rfl rfl
        fun a v => (or_iff_left (by simp)).symm
    rw [hroles₁] at h₁
    have hisolate : Symbol.isolate ν₁ = Symbol.isolate ν :=
      funext fun s => Symbol.isolate_congr fun a _ => Function.update_of_ne (by simp) _ _
    have hfold : b.fold r.left (rest ν r k) =
        (b.introduce b.naming.chainStem (r.pair ν k)).fold r.left (rest ν₁ r (k + 1)) := by
      have hlink : r.comb ν₁ (k + 1) = .nonterminal (b.fresh b.naming.chainStem).1 := by
        rw [Rule.comb, hν₁, Function.update_self]
      rw [rest_eq_cons (by omega), rest, hlink, hisolate, List.drop_eq_getElem_cons (by omega),
        List.map_cons, Binarization.fold]
      rfl
    rw [hfold]
    exact ih (k + 1) (by omega) h₁

/-! ## All alternatives -/

/-- **The binary form of an alternative** is built, with variables for the roles that are called.

**Proof sketch.** A short alternative calls for no role and is its own binary form. In a longer one
all terminals are isolated, which are the roles below the first pair (`Arranged.isolateAll`), and
then what is left is folded from its first symbol on (`Arranged.fold`). -/
theorem Arranged.addBinary {r : Rule} (h : Arranged g ν roles lefts rules b)
    (hroles : ∀ j, .link r j ∉ roles) :
    ∃ ν', Arranged g ν' (roles ∪ {ρ | r.Calls ρ}) (insert r.left lefts) (insert r rules)
      (b.addBinary r.left r.right) := by
  unfold Binarization.addBinary
  split
  · next hshort =>
    have hnone : ∀ ρ, ¬ r.Calls ρ := fun ρ hρ => absurd hρ.1 (by omega)
    have hbinary : r.binary ν = r.right := if_pos hshort
    have hroles : roles ∪ {ρ | r.Calls ρ} = roles := by
      ext ρ
      simp [hnone]
    rw [hroles, ← hbinary]
    exact ⟨ν, h.add fun ρ hρ => absurd hρ (hnone ρ)⟩
  · next hlong =>
    obtain ⟨ν₁, h₁, -, heq⟩ := h.isolateAll r.right
    have hletters : letters r.right = {ρ | r.CallsBelow 0 ρ} := by
      ext ρ
      cases ρ <;> simp [letters, Rule.CallsBelow]
    have hne : r.right ≠ [] := fun hnil => hlong (by simp [hnil])
    rw [hletters] at h₁
    dsimp only
    rw [heq, ← rest_zero hne]
    exact h₁.fold (r.right.length - 2) 0 (by omega) hroles

/-- The roles that some rules call for, directly or through others. -/
def called (rules : Set Rule) : Set Role := {ρ | ∃ r ∈ rules, r.Calls ρ}

/-- **Many steps.** If a step builds the binary forms of some rules and gives some variables an
entry, unless it was done before, then many different steps do so for all of these.

**Proof sketch.** Induction on the items. The first step makes the state arranged for its own rules
as well; none of these is owed by a later item, so the condition that nothing is built twice is
kept. -/
lemma Arranged.foldl {ι : Type} (step : Binarization → ι → Binarization) (left : ι → Set Name)
    (owes : ι → Set Rule) (items : List ι)
    (hdifferent : items.Pairwise fun i j => ∀ r ∈ owes j, r ∉ owes i)
    (hnew : ∀ i ∈ items, ∀ r ∈ owes i, r ∉ rules)
    (hstep : ∀ ν lefts rules b, ∀ i ∈ items, (∀ r ∈ owes i, r ∉ rules) →
      Arranged g ν (called rules) lefts rules b →
      ∃ ν', Arranged g ν' (called (rules ∪ owes i)) (lefts ∪ left i) (rules ∪ owes i) (step b i))
    (h : Arranged g ν (called rules) lefts rules b) :
    ∃ ν', Arranged g ν' (called (rules ∪ {r | ∃ i ∈ items, r ∈ owes i}))
      (lefts ∪ {v | ∃ i ∈ items, v ∈ left i}) (rules ∪ {r | ∃ i ∈ items, r ∈ owes i})
      (items.foldl step b) := by
  induction items generalizing ν lefts rules b with
  | nil => exact ⟨ν, by simpa using h⟩
  | cons i items ih =>
    obtain ⟨ν₁, h₁⟩ := hstep ν lefts rules b i List.mem_cons_self (hnew i List.mem_cons_self) h
    rw [List.pairwise_cons] at hdifferent
    have hnew₁ : ∀ j ∈ items, ∀ r ∈ owes j, r ∉ rules ∪ owes i := by
      rintro j hj r hr (hm | hm)
      · exact hnew j (List.mem_cons_of_mem _ hj) r hr hm
      · exact hdifferent.1 j hj r hr hm
    have hunion : ∀ {α : Type} (s : Set α) (f : ι → Set α),
        s ∪ f i ∪ {x | ∃ j ∈ items, x ∈ f j} = s ∪ {x | ∃ j ∈ i :: items, x ∈ f j} := by
      intro α s f
      ext x
      simp [or_assoc]
    obtain ⟨ν', h'⟩ := ih hdifferent.2 hnew₁
      (fun ν lefts rules b j hj => hstep ν lefts rules b j (List.mem_cons_of_mem _ hj)) h₁
    rw [hunion, hunion] at h'
    exact ⟨ν', h'⟩

/-- The roles that are called with some more rules. -/
lemma called_insert (rules : Set Rule) (r : Rule) :
    called (insert r rules) = called rules ∪ {ρ | r.Calls ρ} := by
  ext ρ
  simp [called, or_comm]

/-- **One more rule**: its binary form is built, unless it was built before. The links of a rule
are called by this rule only, so their names are still to be drawn. -/
lemma Arranged.addRule (h : Arranged g ν (called rules) lefts rules b) {r : Rule} (hr : r ∉ rules) :
    ∃ ν', Arranged g ν' (called (rules ∪ {r})) (lefts ∪ {r.left}) (rules ∪ {r})
      (b.addBinary r.left r.right) := by
  rw [Set.union_singleton, Set.union_singleton, called_insert]
  refine h.addBinary ?_
  rintro j ⟨r', hr', -, rfl, -⟩
  exact hr hr'

/-- **The binary forms of all alternatives of a variable** are built.

**Proof sketch.** The variable gets its entry first. Then each alternative is one step
(`Arranged.foldl`), which builds the binary form of one rule (`Arranged.addRule`); different
alternatives are different rules. -/
lemma Arranged.addEntry (h : Arranged g ν (called rules) lefts rules b) (left : Name)
    (rights : SortedSet (List Symbol))
    (hnew : ∀ right ∈ rights, ⟨left, right⟩ ∉ rules) :
    ∃ ν', Arranged g ν' (called (rules ∪ {r | r.left = left ∧ r.right ∈ rights}))
      (lefts ∪ {left}) (rules ∪ {r | r.left = left ∧ r.right ∈ rights})
      (b.addEntry left rights) := by
  have hrules : {r | ∃ right ∈ rights.toList, r ∈ ({⟨left, right⟩} : Set Rule)} =
      {r | r.left = left ∧ r.right ∈ rights} := by
    ext ⟨left', right⟩
    simp [SortedSet.mem_def, and_comm]
  have hlefts : insert left lefts ∪ {v | ∃ right ∈ rights.toList, v ∈ ({left} : Set Name)} =
      lefts ∪ {left} := by
    ext v
    simp only [Set.union_singleton, Set.mem_union, or_iff_left_iff_imp]
    rintro ⟨-, -, rfl⟩
    exact Set.mem_insert _ _
  obtain ⟨ν', h'⟩ := (h.declare left).foldl (fun b right => b.addBinary left right)
    (fun _ => {left}) (fun right => {⟨left, right⟩}) rights.toList
    (rights.nodup_toList.imp fun hne r hr hr' =>
      hne (Rule.mk.inj ((Set.mem_singleton_iff.1 hr').symm.trans (Set.mem_singleton_iff.1 hr))).2)
    (fun right hright r hr => Set.mem_singleton_iff.1 hr ▸ hnew right hright)
    fun _ _ _ _ right _ hnew h => h.addRule (r := ⟨left, right⟩) (hnew _ rfl)
  rw [hrules, hlefts] at h'
  exact ⟨ν', h'⟩

/-! ## The whole binarization -/

/-- **In the beginning** there are no new variables, and nothing has been built. The naming does
not matter then. -/
lemma arranged_ofGrammar (g : Grammar) (naming : Naming) (ν : Role → Name) :
    Arranged g ν ∅ ∅ ∅ (ofGrammar g naming) where
  used v hv := FreshNames.mem_used_ofGrammar.2 hv
  used_role _ hρ := hρ.elim
  new _ hρ := hρ.elim
  injOn := Set.injOn_empty ν
  closed _ hρ := hρ.elim
  closed_rules _ hr := hr.elim
  isolated a v := by simp [ofGrammar]
  keys v := by simp [ofGrammar, SortedMap.mem_keys_iff_isSome]
  alternatives v right := by simp [Grammar.alternatives, toGrammar, ofGrammar]

end Binarization

namespace Grammar

open Binarization

/-- **A binarization leads to the binary form of a grammar**, for some naming of the roles.

**Proof sketch.** Each entry of the productions is one step of the invariant (`Arranged.foldl`);
entries have different keys, so no rule is met twice. In the end the rules are all rules of the
grammar and the left-hand sides all of its keys, which is what an arrangement asks for. -/
theorem exists_arrangement {g : Grammar} (hg : g.WellFormed) (naming : Naming) :
    ∃ ν, g.Arrangement ν (g.binarize naming) := by
  have hempty : (∅ : Set Role) = called ∅ := by
    ext ρ
    simp [called]
  have hstart := arranged_ofGrammar g naming fun _ => epsilonName
  rw [hempty] at hstart
  obtain ⟨ν, h⟩ := hstart.foldl (fun b entry => b.addEntry entry.1 entry.2)
    (fun entry => {entry.1}) (fun entry => {r | r.left = entry.1 ∧ r.right ∈ entry.2})
    g.productions.toList
    (g.productions.ascending.imp fun hlt r hr hr' =>
      compare_self_ne_lt (hr.1 ▸ hr'.1 ▸ hlt))
    (fun _ _ r _ => Set.notMem_empty r)
    fun _ _ _ _ entry _ hnew h => h.addEntry entry.1 entry.2 fun right hr => hnew _ ⟨rfl, hr⟩
  have hrules : ∅ ∪ {r | ∃ entry ∈ g.productions.toList,
      r ∈ {r : Rule | r.left = entry.1 ∧ r.right ∈ entry.2}} =
        {r | r.right ∈ g.alternatives r.left} := by
    ext r
    rw [Set.empty_union]
    refine Iff.trans ?_ mem_alternatives.symm
    constructor
    · rintro ⟨⟨v, rights⟩, he, rfl, hr⟩
      exact ⟨rights, SortedMap.mem_toList.1 he, hr⟩
    · rintro ⟨rights, he, hr⟩
      exact ⟨(r.left, rights), SortedMap.mem_toList.2 he, rfl, hr⟩
  have hlefts : ∅ ∪ {v | ∃ entry ∈ g.productions.toList, v ∈ ({entry.1} : Set Name)} =
      {v | v ∈ g.productions.keys} := by
    ext v
    simp [SortedMap.mem_keys]
  rw [hrules, hlefts] at h
  refine ⟨ν, rfl, rfl, h.new, h.injOn, fun v => ?_, h.keys, h.alternatives⟩
  refine SortedSet.mem_union.trans ?_
  rw [h.keys, or_comm, ← or_assoc]
  exact or_congr_left (or_iff_left_of_imp (hg.left_mem v))

end Grammar

end ChomskyForm
