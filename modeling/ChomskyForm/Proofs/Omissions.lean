import Mathlib.Algebra.Order.Ring.Nat
import Mathlib.Data.Finset.Preimage
import Mathlib.Data.Nat.Count
import Mathlib.Data.Nat.SuccPred
import ChomskyForm.Proofs.EmptyAlternatives

set_option autoImplicit false
set_option relaxedAutoImplicit false

/-!
# Variants by the positions left out

A variant of a right-hand side is what is left of it when some positions are left out, and every
set of positions that hold optional variables may be chosen for that. There is one variant in the
list for each choice, so different choices that leave the same sequence give it several times. The
same list comes from a single walk over the right-hand side, which keeps the beginnings of all
variants and doubles them at each optional position.

## Main definitions

* `ChomskyForm.optionalPositions`: the positions that hold optional variables.
* `ChomskyForm.leaveOut`: what is left of a right-hand side without some positions.
* `ChomskyForm.extendAll`: one step of the walk.

## Main results

* `ChomskyForm.mem_variants_iff_leaveOut`: which sequences are variants.
* `ChomskyForm.length_variants`: how many variants there are.
* `ChomskyForm.foldl_extendAll`: the walk leads to the variants.
* `ChomskyForm.variants_exact`: all three of them.
-/

namespace ChomskyForm

variable {optional : SortedSet Name} {right : List Symbol} {s : Symbol} {p : Nat}

/-! ## Positions -/

/-- **The positions that hold optional variables**, counted from 0. A variable that occurs twice
holds two positions. -/
def optionalPositions (optional : SortedSet Name) (right : List Symbol) : Finset Nat :=
  {p ∈ Finset.range right.length | right[p]?.any (·.isIn optional)}

/-- A position is optional exactly when it holds an optional variable; positions beyond the end
hold none. -/
lemma mem_optionalPositions :
    p ∈ optionalPositions optional right ↔ ∃ v ∈ optional, right[p]? = some (.nonterminal v) := by
  rw [optionalPositions, Finset.mem_filter, Finset.mem_range, Option.any_eq_true]
  constructor
  · rintro ⟨-, s, hs, hin⟩
    obtain ⟨v, hv, rfl⟩ := Symbol.isIn_iff.1 hin
    exact ⟨v, hv, hs⟩
  · rintro ⟨v, hv, hp⟩
    obtain ⟨hlt, -⟩ := List.getElem?_eq_some_iff.1 hp
    exact ⟨hlt, _, hp, Symbol.isIn_iff.2 ⟨v, hv, rfl⟩⟩

/-- The first position is optional exactly when the first symbol is an optional variable. -/
lemma zero_mem_optionalPositions :
    0 ∈ optionalPositions optional (s :: right) ↔ s.isIn optional = true := by
  rw [mem_optionalPositions, Symbol.isIn_iff]
  simp

/-- The later positions are those of the tail, moved on by one. -/
lemma succ_mem_optionalPositions :
    p + 1 ∈ optionalPositions optional (s :: right) ↔ p ∈ optionalPositions optional right := by
  rw [mem_optionalPositions, mem_optionalPositions]
  simp

/-- One more symbol in front is one more optional position, if it is an optional variable. -/
lemma card_optionalPositions_cons :
    (optionalPositions optional (s :: right)).card =
      (optionalPositions optional right).card + if s.isIn optional then 1 else 0 := by
  simp only [optionalPositions, ← Nat.count_eq_card_filter_range]
  rw [List.length_cons, Nat.count_succ']
  simp

/-! ## Leaving out positions -/

/-- **Leaving out** the symbols at some positions. The others stay, in their order. -/
def leaveOut (dropped : Finset Nat) (right : List Symbol) : List Symbol :=
  (right.zipIdx.filter fun entry => entry.2 ∉ dropped).map Prod.fst

section Shift

variable {dropped dropped' : Finset Nat} (h : ∀ p, p ∈ dropped' ↔ p + 1 ∈ dropped)

include h in
/-- **The first symbol is left out or stays.** The later positions are counted from the second
symbol on, which is what `h` says of the two sets. -/
lemma leaveOut_cons (s : Symbol) (right : List Symbol) :
    leaveOut dropped (s :: right) =
      if 0 ∈ dropped then leaveOut dropped' right else s :: leaveOut dropped' right := by
  have htail : ((right.zipIdx 1).filter fun entry => entry.2 ∉ dropped).map Prod.fst =
      leaveOut dropped' right := by
    rw [leaveOut, List.zipIdx_succ, List.filter_map, List.map_map]
    simp only [Function.comp_def, ← h]
  rw [leaveOut, List.zipIdx_cons, List.filter_cons, ← htail]
  by_cases h0 : 0 ∈ dropped
  · simp [h0]
  · simp [h0]

include h in
/-- **A choice of optional positions** is one for the first symbol and one for the others. -/
lemma subset_optionalPositions_cons :
    dropped ⊆ optionalPositions optional (s :: right) ↔
      (0 ∈ dropped → s.isIn optional = true) ∧ dropped' ⊆ optionalPositions optional right := by
  constructor
  · intro hsub
    refine ⟨fun h0 => zero_mem_optionalPositions.1 (hsub h0), fun p hp => ?_⟩
    exact succ_mem_optionalPositions.1 (hsub ((h p).1 hp))
  · rintro ⟨h0, hsub⟩ p hp
    cases p with
    | zero => exact zero_mem_optionalPositions.2 (h0 hp)
    | succ p => exact succ_mem_optionalPositions.2 (hsub ((h p).2 hp))

end Shift

/-! ## The variants -/

/-- **The variants are what is left** without some of the optional positions.

**Proof sketch.** Induction on the right-hand side. The choice of positions that gives a variant is
that of its tail, moved on by one, with the first position if the first symbol is left out. -/
theorem mem_variants_iff_leaveOut {variant : List Symbol} :
    variant ∈ variants optional right ↔
      ∃ dropped ⊆ optionalPositions optional right, leaveOut dropped right = variant := by
  induction right generalizing variant with
  | nil => simp [variants, leaveOut, optionalPositions, eq_comm]
  | cons s right ih =>
    rw [mem_variants_cons]
    constructor
    · rintro (⟨hs, hvariant⟩ | ⟨tail, htail, rfl⟩)
      · obtain ⟨dropped, hsub, rfl⟩ := ih.1 hvariant
        have hshift : ∀ p, p ∈ dropped ↔ p + 1 ∈ insert 0 (dropped.image (· + 1)) := by simp
        refine ⟨_, (subset_optionalPositions_cons hshift).2 ⟨fun _ => hs, hsub⟩, ?_⟩
        rw [leaveOut_cons hshift, if_pos (Finset.mem_insert_self _ _)]
      · obtain ⟨dropped, hsub, rfl⟩ := ih.1 htail
        have hshift : ∀ p, p ∈ dropped ↔ p + 1 ∈ dropped.image (· + 1) := by simp
        have h0 : 0 ∉ dropped.image (· + 1) := by simp
        refine ⟨_, (subset_optionalPositions_cons hshift).2 ⟨fun h => absurd h h0, hsub⟩, ?_⟩
        rw [leaveOut_cons hshift, if_neg h0]
    · rintro ⟨dropped, hsub, rfl⟩
      -- the positions that are left out of the tail, counted from its own beginning
      have hshift : ∀ p, p ∈ dropped.preimage (· + 1) (add_left_injective 1).injOn ↔
          p + 1 ∈ dropped := by simp
      obtain ⟨hs, htail⟩ := (subset_optionalPositions_cons hshift).1 hsub
      rw [leaveOut_cons hshift]
      split
      · next h0 => exact .inl ⟨hs h0, ih.2 ⟨_, htail, rfl⟩⟩
      · exact .inr ⟨_, ih.2 ⟨_, htail, rfl⟩, rfl⟩

/-- **There are as many variants** as there are choices of optional positions: an optional variable
at the front doubles their number, any other symbol keeps it. -/
theorem length_variants :
    (variants optional right).length = 2 ^ (optionalPositions optional right).card := by
  induction right with
  | nil => rfl
  | cons s right ih =>
    rw [card_optionalPositions_cons, variants]
    split
    · rw [List.length_append, List.length_map, ih, Nat.pow_succ, Nat.mul_two]
    · rw [List.length_map, ih, Nat.add_zero]

/-! ## The walk over a right-hand side -/

/-- **One step of the walk.** Each beginning goes on with the next symbol, and first also without it
if that is an optional variable. -/
def extendAll (optional : SortedSet Name) (beginnings : List (List Symbol)) (s : Symbol) :
    List (List Symbol) :=
  beginnings.flatMap fun start =>
    if s.isIn optional then [start, start ++ [s]] else [start ++ [s]]

/-- **The walk** continues each beginning with all variants of what comes next.

**Proof sketch.** Induction on the right-hand side, for any beginnings. After one step each
beginning is there with the first symbol and, if that is optional, before that without it, which is
how the variants begin. -/
theorem foldl_extendAll (beginnings : List (List Symbol)) :
    right.foldl (extendAll optional) beginnings =
      beginnings.flatMap fun start => (variants optional right).map (start ++ ·) := by
  induction right generalizing beginnings with
  | nil => simp [variants]
  | cons s right ih =>
    rw [List.foldl_cons, ih, extendAll, List.flatMap_assoc]
    refine congrArg (beginnings.flatMap ·) (funext fun start => ?_)
    rw [variants]
    split
    · simp
    · simp

/-- **The variants are exact.** They are the sequences that are left when any subset of the
positions that hold an optional variable is left out; there are `2 ^ k` of them in the list, where
`k` is the number of these positions; and the list is what a walk over the right-hand side leads
to, one that begins with the empty beginning. The walk gives the very same list, with its order and
its repetitions. -/
theorem variants_exact (optional : SortedSet Name) (right : List Symbol) :
    (∀ p, p ∈ optionalPositions optional right ↔
      ∃ v ∈ optional, right[p]? = some (.nonterminal v)) ∧
    (∀ variant, variant ∈ variants optional right ↔
      ∃ dropped ⊆ optionalPositions optional right, leaveOut dropped right = variant) ∧
    (variants optional right).length = 2 ^ (optionalPositions optional right).card ∧
    right.foldl (extendAll optional) [[]] = variants optional right := by
  refine ⟨fun p => mem_optionalPositions, fun variant => mem_variants_iff_leaveOut,
    length_variants, ?_⟩
  rw [foldl_extendAll]
  simp

/-- A variable that occurs twice is left out once in two ways. -/
example : variants (SortedSet.singleton "A") [.nonterminal "A", .nonterminal "A"] =
    [[], [.nonterminal "A"], [.nonterminal "A"], [.nonterminal "A", .nonterminal "A"]] := by
  decide

end ChomskyForm
