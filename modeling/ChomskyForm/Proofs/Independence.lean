import Mathlib.Data.Set.Function
import ChomskyForm.Proofs.Arrangement
import ChomskyForm.Proofs.Equivariance
import ChomskyForm.Proofs.StageOrder

set_option autoImplicit false
set_option relaxedAutoImplicit false

/-!
# Normalization does not depend on names

If a grammar is renamed, and other stems and numbers are chosen for the new variables, then
normalization leads to the same result up to a renaming. Which variable corresponds to which is
determined: a variable of the trimmed grammar to its new name, and a new variable to the one with
the same role.

## Main definitions

* `ChomskyForm.Role.rename`: a role with the names in it replaced.
* `ChomskyForm.Grammar.Corresponds`: correspondences of variables.

## Main results

* `ChomskyForm.Grammar.calls_rename`: a renamed grammar calls for the renamed roles.
* `ChomskyForm.Grammar.Arrangement.rename_eq`: a correspondence of variables renames one binary form
  to the other one.
* `ChomskyForm.Grammar.Arrangement.exists_corresponds`: there is such a correspondence.
* `ChomskyForm.Grammar.Attainable.normalize_rename`: normal forms are the same up to a renaming.
-/

namespace ChomskyForm

/-! ## Renamed roles -/

section Rename

variable {f t : Name → Name}

/-- A renaming that keeps different names different keeps different symbols different: the kind of
a symbol stays, and its name can be told from the new one. -/
lemma Symbol.rename_injective (hf : Function.Injective f) (ht : Function.Injective t) :
    Function.Injective (Symbol.rename f t) := by
  rintro (a | v | _) (b | u | _) heq <;> simp_all [Symbol.rename, hf.eq_iff, ht.eq_iff]

/-- **Renaming of a rule**, on both of its sides. -/
def Rule.rename (π : Equiv.Perm Name) (r : Rule) : Rule :=
  ⟨π r.left, r.right.map (Symbol.rename π π)⟩

/-- **Renaming of a role.** A link stays at its place in the renamed rule. -/
def Role.rename (π : Equiv.Perm Name) : Role → Role
  | letter a => letter (π a)
  | link r k => link (r.rename π) k

variable {π : Equiv.Perm Name}

/-- Different rules are renamed to different ones. -/
lemma Rule.rename_injective : Function.Injective (Rule.rename π) := by
  rintro ⟨left, right⟩ ⟨left', right'⟩ heq
  obtain ⟨hleft, hright⟩ := Rule.mk.inj heq
  obtain rfl : left = left' := π.injective hleft
  obtain rfl : right = right' :=
    List.map_injective_iff.2 (Symbol.rename_injective π.injective π.injective) hright
  rfl

/-- Different roles are renamed to different ones. -/
lemma Role.rename_injective : Function.Injective (Role.rename π) := by
  rintro (a | ⟨r, k⟩) (b | ⟨r', k'⟩) heq
  · rw [π.injective (Role.letter.inj heq)]
  · cases heq
  · cases heq
  · obtain ⟨hr, rfl⟩ := Role.link.inj heq
    rw [Rule.rename_injective hr]

/-- **A renamed rule calls for the renamed roles.** It has as many symbols, so it calls for as many
links, and its terminals are the renamed terminals.

**Proof sketch.** By cases on the role. A letter comes from a terminal of the renamed rule, which
is a renamed terminal; a link belongs to the renamed rule itself, and its place is the same. -/
lemma Rule.calls_rename {r : Rule} {ρ : Role} :
    (r.rename π).Calls ρ ↔ ∃ ρ', r.Calls ρ' ∧ ρ'.rename π = ρ := by
  have hlen : (r.rename π).right.length = r.right.length := List.length_map _
  rw [Rule.Calls, hlen]
  constructor
  · rintro ⟨h, hρ⟩
    cases ρ with
    | letter a =>
      obtain ⟨b, hb, rfl⟩ := Symbol.terminal_mem_map_rename.1 hρ
      exact ⟨.letter b, ⟨h, hb⟩, rfl⟩
    | link r' j =>
      obtain ⟨rfl, hj⟩ := hρ
      exact ⟨.link r j, ⟨h, rfl, hj⟩, rfl⟩
  · rintro ⟨ρ', ⟨h, hρ'⟩, rfl⟩
    refine ⟨h, ?_⟩
    cases ρ' with
    | letter b => exact Symbol.terminal_mem_map_rename.2 ⟨b, hρ', rfl⟩
    | link r' j => exact ⟨congrArg (Rule.rename π) hρ'.1, hρ'.2⟩

namespace Grammar

variable {g : Grammar}

/-- The rules of a renamed grammar are the renamed rules. -/
lemma mem_alternatives_rename_iff {r : Rule} :
    r.right ∈ (g.rename π π).alternatives r.left ↔
      ∃ r' : Rule, r'.right ∈ g.alternatives r'.left ∧ r'.rename π = r := by
  rw [mem_alternatives_rename]
  constructor
  · rintro ⟨u, hu, right', hr', hright⟩
    exact ⟨⟨u, right'⟩, hr', by rw [Rule.rename, hu, hright]⟩
  · rintro ⟨r', hr', rfl⟩
    exact ⟨r'.left, rfl, r'.right, hr', rfl⟩

/-- **A renamed grammar calls for the renamed roles.** -/
theorem calls_rename {ρ : Role} :
    (g.rename π π).Calls ρ ↔ ∃ ρ', g.Calls ρ' ∧ ρ'.rename π = ρ := by
  constructor
  · rintro ⟨r, hr, hρ⟩
    obtain ⟨r', hr', rfl⟩ := mem_alternatives_rename_iff.1 hr
    obtain ⟨ρ', hρ', rfl⟩ := Rule.calls_rename.1 hρ
    exact ⟨ρ', ⟨r', hr', hρ'⟩, rfl⟩
  · rintro ⟨ρ', ⟨r', hr', hρ'⟩, rfl⟩
    exact ⟨r'.rename π, mem_alternatives_rename_iff.2 ⟨r', hr', rfl⟩,
      Rule.calls_rename.2 ⟨ρ', hρ', rfl⟩⟩

end Grammar

end Rename

/-! ## Corresponding variables -/

section Correspondence

variable {π : Equiv.Perm Name} {s : Name → Name} {ν ν' : Role → Name}

/-- **Corresponding variables make corresponding pairs.**

**Proof sketch.** The two symbols of a pair are isolated symbols of the rule, or the first one is
the variable for fewer symbols. An isolated terminal and the variable of a link correspond by their
roles, other variables because they are renamed. -/
lemma Rule.map_rename_pair {r : Rule} {k : Nat} (hold : ∀ u, .nonterminal u ∈ r.right → s u = π u)
    (hnew : ∀ ρ, r.CallsBelow k ρ → s (ν ρ) = ν' (ρ.rename π)) :
    (r.pair ν k).map (Symbol.rename s π) = (r.rename π).pair ν' k := by
  have hisolate : ∀ i, ((r.right.getD i .epsilon).isolate ν).rename s π =
      ((r.rename π).right.getD i .epsilon).isolate ν' := by
    intro i
    have hmap : (r.rename π).right.getD i .epsilon = (r.right.getD i .epsilon).rename π π :=
      List.getD_map r.right .epsilon (Symbol.rename π π)
    rw [hmap]
    cases hx : r.right.getD i .epsilon with
    | terminal a =>
      exact congrArg Symbol.nonterminal (hnew (.letter a) (mem_right_of_getD hx (by simp)))
    | nonterminal u =>
      exact congrArg Symbol.nonterminal (hold u (mem_right_of_getD hx (by simp)))
    | epsilon => rfl
  have hcomb : (r.comb ν k).rename s π = (r.rename π).comb ν' k := by
    cases k with
    | zero => exact hisolate 0
    | succ k => exact congrArg Symbol.nonterminal (hnew (.link r k) ⟨rfl, Nat.lt_succ_self k⟩)
  rw [pair, pair, List.map_cons, List.map_singleton, hcomb, hisolate]

/-- **Corresponding variables make corresponding binary forms.** A short right-hand side is its own
binary form, and of a longer one the last pair is left (`map_rename_pair`). -/
lemma Rule.map_rename_binary {r : Rule} (hold : ∀ u, .nonterminal u ∈ r.right → s u = π u)
    (hnew : ∀ ρ, r.Calls ρ → s (ν ρ) = ν' (ρ.rename π)) :
    (r.binary ν).map (Symbol.rename s π) = (r.rename π).binary ν' := by
  have hlen : (r.rename π).right.length = r.right.length := List.length_map _
  unfold binary
  rw [hlen]
  split
  · next hshort =>
    refine List.map_congr_left fun x hx => ?_
    cases x with
    | terminal | epsilon => rfl
    | nonterminal u => exact congrArg Symbol.nonterminal (hold u hx)
  · next hlong => exact map_rename_pair hold fun ρ hρ => hnew ρ ⟨by omega, hρ⟩

namespace Grammar

variable {g h h' : Grammar}

/-- **Corresponding variables**: the old ones are renamed, and a new one corresponds to the one
with the renamed role. -/
structure Corresponds (g : Grammar) (π : Equiv.Perm Name) (ν ν' : Role → Name) (s : Name → Name) :
    Prop where
  /-- The old variables are renamed. -/
  old : ∀ v ∈ g.nonterminals, s v = π v
  /-- New variables are told apart by their roles. -/
  new : ∀ ρ, g.Calls ρ → s (ν ρ) = ν' (ρ.rename π)

/-- The variables that correspond to old and new ones are the renamed old ones and the new ones.
Used for the variables and, once more, for the left-hand sides with an entry. -/
lemma Corresponds.exists_iff (hs : g.Corresponds π ν ν' s) {old : Name → Prop}
    (hold : ∀ u, old u → u ∈ g.nonterminals) {v : Name} :
    (∃ u, (old u ∨ ∃ ρ, g.Calls ρ ∧ ν ρ = u) ∧ s u = v) ↔
      (∃ u, old u ∧ π u = v) ∨ ∃ ρ, (g.rename π π).Calls ρ ∧ ν' ρ = v := by
  simp only [calls_rename]
  constructor
  · rintro ⟨_, hu | ⟨ρ, hρ, rfl⟩, rfl⟩
    · exact .inl ⟨_, hu, (hs.old _ (hold _ hu)).symm⟩
    · exact .inr ⟨_, ⟨ρ, hρ, rfl⟩, (hs.new ρ hρ).symm⟩
  · rintro (⟨u, hu, rfl⟩ | ⟨_, ⟨ρ, hρ, rfl⟩, rfl⟩)
    · exact ⟨u, .inl hu, hs.old u (hold u hu)⟩
    · exact ⟨_, .inr ⟨ρ, hρ, rfl⟩, hs.new ρ hρ⟩

/-- **A correspondence renames one binary form to the other one.**

**Proof sketch.** Both binary forms are given by rules and roles, and the rules and roles of the
renamed grammar are the renamed ones. So the parts are compared rule by rule and role by role:
right-hand sides correspond by `map_rename_binary` and `map_rename_pair`, left-hand sides by the
correspondence itself. -/
theorem Arrangement.rename_eq (hg : g.WellFormed) (hh : g.Arrangement ν h)
    (hh' : (g.rename π π).Arrangement ν' h') (hs : g.Corresponds π ν ν' s) :
    h.rename s π = h' := by
  have hform : ∀ r : Rule, r.right ∈ g.alternatives r.left →
      ∀ u, .nonterminal u ∈ r.right → s u = π u :=
    fun r hr u hu => hs.old u (hg.declares r.left r.right hr _ hu)
  have hrole : ∀ ρ, g.Calls ρ → (ρ.right ν).map (Symbol.rename s π) = (ρ.rename π).right ν' := by
    intro ρ hρ
    cases ρ with
    | letter a => rfl
    | link r k =>
      exact Rule.map_rename_pair (hform r hρ.mem_alternatives)
        fun ρ' hρ' => hs.new ρ' (hρ.of_link hρ')
  have hrule : ∀ r : Rule, r.right ∈ g.alternatives r.left →
      (r.binary ν).map (Symbol.rename s π) = (r.rename π).binary ν' := fun r hr =>
    Rule.map_rename_binary (hform r hr) fun ρ hρ => hs.new ρ ⟨r, hr, hρ⟩
  have hleft : ∀ r : Rule, r.right ∈ g.alternatives r.left → s r.left = π r.left := fun r hr =>
    hs.old _ (hg.mem_nonterminals hr)
  refine ext_of_mem (fun v => ?_) ?_ ?_ (fun v => ?_) fun v right => ?_
  · rw [mem_nonterminals_rename, hh'.nonterminals, mem_nonterminals_rename]
    simp only [hh.nonterminals]
    exact hs.exists_iff fun _ hu => hu
  · rw [hh'.terminals, rename, rename, hh.terminals]
  · rw [start_rename, hh'.start, start_rename, hh.start, hs.old _ hg.start_mem]
  · rw [mem_keys_rename, hh'.keys, mem_keys_rename]
    simp only [hh.keys]
    exact hs.exists_iff hg.left_mem
  · rw [mem_alternatives_rename, hh'.alternatives]
    simp only [hh.alternatives, mem_alternatives_rename_iff, calls_rename]
    -- rule by rule and role by role
    constructor
    · rintro ⟨_, rfl, _, ⟨r, hr, rfl, rfl⟩ | ⟨ρ, hρ, rfl, rfl⟩, rfl⟩
      · exact .inl ⟨_, ⟨r, hr, rfl⟩, (hleft r hr).symm, (hrule r hr).symm⟩
      · exact .inr ⟨_, ⟨ρ, hρ, rfl⟩, (hs.new ρ hρ).symm, (hrole ρ hρ).symm⟩
    · rintro (⟨_, ⟨r, hr, rfl⟩, rfl, rfl⟩ | ⟨_, ⟨ρ, hρ, rfl⟩, rfl, rfl⟩)
      · exact ⟨_, hleft r hr, _, .inl ⟨r, hr, rfl, rfl⟩, hrule r hr⟩
      · exact ⟨_, hs.new ρ hρ, _, .inr ⟨ρ, hρ, rfl, rfl⟩, hrole ρ hρ⟩

/-- **Different variables correspond to different ones.**

**Proof sketch.** Old variables are renamed by a permutation; new ones have different roles, and
these are renamed to different ones. An old variable and a new one never correspond to the same
variable, since the variables of renamed roles are new to the renamed grammar. -/
theorem Arrangement.injOn_corresponds (hh : g.Arrangement ν h)
    (hh' : (g.rename π π).Arrangement ν' h') (hs : g.Corresponds π ν ν' s) :
    Set.InjOn s {v | v ∈ h.nonterminals} := by
  have hcalls : ∀ ρ, g.Calls ρ → (g.rename π π).Calls (ρ.rename π) :=
    fun ρ hρ => calls_rename.2 ⟨ρ, hρ, rfl⟩
  -- an old variable and a new one do not correspond to the same variable
  have hmixed : ∀ u ∈ g.nonterminals, ∀ ρ, g.Calls ρ → s u ≠ s (ν ρ) := by
    intro u hu ρ hρ heq
    rw [hs.old u hu, hs.new ρ hρ] at heq
    exact hh'.new _ (hcalls ρ hρ) (mem_nonterminals_rename.2 ⟨u, hu, heq⟩)
  intro u hu v hv heq
  rcases (hh.nonterminals u).1 hu with hu | ⟨ρ, hρ, rfl⟩ <;>
    rcases (hh.nonterminals v).1 hv with hv | ⟨ρ', hρ', rfl⟩
  · rw [hs.old u hu, hs.old v hv] at heq
    exact π.injective heq
  · exact absurd heq (hmixed u hu ρ' hρ')
  · exact absurd heq.symm (hmixed v hv ρ hρ)
  · rw [hs.new ρ hρ, hs.new ρ' hρ'] at heq
    rw [Role.rename_injective (hh'.injOn (hcalls ρ hρ) (hcalls ρ' hρ') heq)]

/-- **There is a correspondence.** The role of a new variable can be had back from it, because
different roles have different variables. -/
lemma Arrangement.exists_corresponds (hh : g.Arrangement ν h) (π : Equiv.Perm Name)
    (ν' : Role → Name) : ∃ s, g.Corresponds π ν ν' s := by
  classical
  refine ⟨fun v => if v ∈ g.nonterminals then π v else
    ν' ((Function.invFunOn ν {ρ | g.Calls ρ} v).rename π), fun v hv => if_pos hv, fun ρ hρ => ?_⟩
  rw [if_neg (hh.new ρ hρ), hh.injOn.leftInvOn_invFunOn hρ]

end Grammar

end Correspondence

/-! ## Normal forms -/

namespace Grammar

variable {g : Grammar}

/-- A renaming that keeps the variables different is a correspondence of all of them with those of
the renamed grammar. -/
lemma bijOn_rename {s : Name → Name} (hs : Set.InjOn s {v | v ∈ g.nonterminals}) (t : Name → Name) :
    Set.BijOn s {v | v ∈ g.nonterminals} {v | v ∈ (g.rename s t).nonterminals} :=
  ⟨fun v hv => mem_nonterminals_rename.2 ⟨v, hv, rfl⟩, hs, fun _ hv => mem_nonterminals_rename.1 hv⟩

/-- **Normal forms are the same up to a renaming.** If the names of an attainable grammar are
replaced by different ones, none of them the reserved one, then the variables of its normal form
correspond to those of the normal form of the renamed grammar, whatever the namings of new
variables are. What is left of the old variables corresponds as it was renamed.

**Proof sketch.** An injective renaming acts like a permutation (`exists_perm_rename`), which
commutes with the stages before the binarization (`trim_rename`). The two binarizations lead to
binary forms of a grammar and of the same grammar renamed, and a correspondence of their variables
renames one to the other (`Arrangement.rename_eq`). -/
theorem Attainable.normalize_rename (h : g.Attainable) {r : Name → Name}
    (hr : Set.InjOn r g.names) (hmark : ∀ v ∈ g.names, r v ≠ epsilonName)
    (naming naming' : Naming) :
    ∃ s : Name → Name,
      Set.BijOn s {v | v ∈ (g.normalize naming).nonterminals}
        {v | v ∈ ((g.rename r r).normalize naming').nonterminals} ∧
      (∀ v ∈ g.trim.nonterminals, s v = r v) ∧
      (g.normalize naming).rename s r = (g.rename r r).normalize naming' := by
  have hg := h.wellFormed
  obtain ⟨π, hπ, hrename⟩ := exists_perm_rename hg hr
  have hwf := wellFormed_trim hg
  have hwf' : (g.trim.rename π π).WellFormed := by
    rw [← trim_rename]
    exact wellFormed_trim (hg.rename π fun v hv => hπ v hv ▸ hmark v hv)
  obtain ⟨ν, harr⟩ := exists_arrangement hwf naming
  obtain ⟨ν', harr'⟩ := exists_arrangement hwf' naming'
  obtain ⟨s, hs⟩ := harr.exists_corresponds π ν'
  have heq : (g.normalize naming).rename s r = (g.rename r r).normalize naming' := by
    calc (g.normalize naming).rename s r
      _ = (g.trim.binarize naming).rename s π :=
            rename_congr (wellFormed_normalize hg naming) (fun _ _ => rfl)
              fun a ha => (hπ a (.inr (terminals_normalize g naming ▸ ha))).symm
      _ = (g.trim.rename π π).binarize naming' := harr.rename_eq hwf harr' hs
      _ = (g.rename r r).normalize naming' := by rw [hrename, normalize_eq, trim_rename]
  refine ⟨s, ?_, fun v hv => ?_, heq⟩
  · rw [← heq]
    exact bijOn_rename (harr.injOn_corresponds harr' hs) r
  · exact (hs.old v hv).trans (hπ v (.inl (mem_nonterminals_of_trim hv)))

/-- The normal forms of the grammar of nested pairs, where `S` gets a name that is a candidate for a
new variable and the other naming has a single stem. -/
theorem normalize_rename_nested :
    nested.toGrammar.Attainable ∧
      Set.InjOn (Equiv.swap "S" "T1") nested.toGrammar.names ∧
      (∀ v ∈ nested.toGrammar.names, Equiv.swap "S" "T1" v ≠ epsilonName) ∧
      ∃ s : Name → Name,
        Set.BijOn s {v | v ∈ (nested.toGrammar.normalize {}).nonterminals}
          {v | v ∈ ((nested.toGrammar.rename (Equiv.swap "S" "T1") (Equiv.swap "S" "T1")).normalize
            { terminalStem := "X" }).nonterminals} ∧
        (∀ v ∈ nested.toGrammar.trim.nonterminals, s v = Equiv.swap "S" "T1" v) ∧
        (nested.toGrammar.normalize {}).rename s (Equiv.swap "S" "T1") =
          (nested.toGrammar.rename (Equiv.swap "S" "T1") (Equiv.swap "S" "T1")).normalize
            { terminalStem := "X" } := by
  have hinj : Set.InjOn (Equiv.swap "S" "T1") nested.toGrammar.names := (Equiv.injective _).injOn
  have hmark : ∀ v ∈ nested.toGrammar.names, Equiv.swap "S" "T1" v ≠ epsilonName := by
    have hlist : ∀ v ∈ nested.toGrammar.nonterminals.toList ++ nested.toGrammar.terminals.toList,
        Equiv.swap "S" "T1" v ≠ epsilonName := by decide
    exact fun v hv => hlist v (List.mem_append.2 hv)
  exact ⟨attainable_nested, hinj, hmark,
    Attainable.normalize_rename attainable_nested hinj hmark {} { terminalStem := "X" }⟩

end Grammar

end ChomskyForm
