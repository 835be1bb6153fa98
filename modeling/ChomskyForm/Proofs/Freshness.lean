import Mathlib.Tactic.Common
import ChomskyForm.Naming.Fresh

set_option autoImplicit false
set_option relaxedAutoImplicit false

/-!
# Fresh names are new

A fresh name is in use neither before it is drawn nor as the reserved name, and it is in use
afterwards. The search for it may forget a used name that it has met, because no candidate of a
stem comes twice.

## Main results

* `ChomskyForm.candidate_injective`: the candidates of a stem are different from each other.
* `ChomskyForm.firstUnused_spec`: the search finds the first unused candidate.
* `ChomskyForm.FreshNames.fresh_notMem`, `ChomskyForm.FreshNames.fresh_ne_epsilonName`,
  `ChomskyForm.FreshNames.mem_used_fresh`: what is known of a fresh name.
-/

namespace ChomskyForm

/-! ## Candidates -/

/-- The characters of a candidate: the stem, primes and the digits of a number. -/
lemma toList_candidate (first : UInt64) (stem : Name) (p : Nat) :
    (candidate first stem p).toList = stem.toList ++
      (List.replicate (p / (UInt64.size - first.toNat)) '\x27' ++
        Nat.toDigits 10 (first.toNat + p % (UInt64.size - first.toNat))) := by
  simp [candidate]

/-- No prime is a digit, so the primes of a candidate can be counted. -/
lemma count_prime_toDigits (n : Nat) : (Nat.toDigits 10 n).count '\x27' = 0 := by
  refine List.count_eq_zero.2 fun h => ?_
  have := Nat.isDigit_of_mem_toDigits (by decide) (by decide) h
  revert this
  decide

/-- **The candidates of a stem are different from each other.**

**Proof sketch.** The number of primes in a candidate tells how often the numbers have been run
through, because digits are no primes; the digits after them tell the number that is reached. -/
theorem candidate_injective {first : UInt64} {stem : Name} {p q : Nat}
    (h : candidate first stem p = candidate first stem q) : p = q := by
  have hlist := congrArg String.toList h
  rw [toList_candidate, toList_candidate, List.append_cancel_left_eq] at hlist
  set span := UInt64.size - first.toNat with hspan
  have hprimes : p / span = q / span := by
    have hcount := congrArg (List.count '\x27') hlist
    simpa [count_prime_toDigits] using hcount
  have hdigits : first.toNat + p % span = first.toNat + q % span := by
    rw [hprimes, List.append_cancel_left_eq] at hlist
    have hvalue := congrArg (fun ds => Nat.ofDigitChars 10 ds 0) hlist
    simpa only [Nat.ofDigitChars_ten_toDigits] using hvalue
  have hp := Nat.div_add_mod p span
  have hq := Nat.div_add_mod q span
  rw [hprimes] at hp
  omega

/-- **A candidate has a digit in it**, so it is not the reserved name, whatever its stem is. -/
lemma candidate_ne_epsilonName (first : UInt64) (stem : Name) (p : Nat) :
    candidate first stem p ≠ epsilonName := by
  intro h
  obtain ⟨c, hc⟩ := List.exists_mem_of_ne_nil _ (Nat.toDigits_ne_nil (b := 10)
    (n := first.toNat + p % (UInt64.size - first.toNat)))
  have hdigit : c.isDigit = true := Nat.isDigit_of_mem_toDigits (by decide) (by decide) hc
  have hmem : c ∈ epsilonName.toList := by
    rw [← h, toList_candidate]
    exact List.mem_append_right _ (List.mem_append_right _ hc)
  rw [show epsilonName.toList = ['ε'] from rfl, List.mem_singleton] at hmem
  subst hmem
  revert hdigit
  decide

/-! ## The search -/

/-- **The search finds the first unused name** of a sequence without repetition, from a given
position on.

**Proof sketch.** Induction along the search. A used name is dropped from the list of used ones; as
it does not come again in the sequence, this makes no difference for the later positions. -/
theorem firstUnused_spec {names : Nat → Name} (hinj : ∀ p q, names p = names q → p = q)
    (used : List Name) (p : Nat) :
    p ≤ firstUnused names used p ∧ names (firstUnused names used p) ∉ used ∧
      ∀ q, p ≤ q → q < firstUnused names used p → names q ∈ used := by
  fun_induction firstUnused names used p with
  | case1 used p hp ih =>
    obtain ⟨hle, hnew, hbetween⟩ := ih
    -- the name at `p` does not come again, so it need not be looked for any more
    have hother : ∀ q, p + 1 ≤ q → (names q ∈ used.erase (names p) ↔ names q ∈ used) := by
      intro q hq
      refine List.mem_erase_of_ne fun heq => ?_
      have := hinj _ _ heq
      omega
    refine ⟨by omega, fun hm => hnew ((hother _ hle).2 hm), fun q hq hlt => ?_⟩
    rcases Nat.eq_or_lt_of_le hq with rfl | hq
    · exact hp
    · exact (hother q hq).1 (hbetween q hq hlt)
  | case2 used p hp => exact ⟨Nat.le_refl p, hp, fun q hq hlt => absurd hlt (by omega)⟩

namespace FreshNames

variable (names : FreshNames) (stem : Name)

/-- **A fresh name is not in use.** -/
theorem fresh_notMem : (names.fresh stem).1 ∉ names.used :=
  (firstUnused_spec (fun _ _ => candidate_injective) names.used.toList _).2.1

/-- A fresh name is not the reserved name, since it is a candidate. -/
lemma fresh_ne_epsilonName : (names.fresh stem).1 ≠ epsilonName :=
  candidate_ne_epsilonName _ _ _

/-- After a name has been drawn, it is in use together with the names that were in use before. -/
@[simp] lemma mem_used_fresh {u : Name} :
    u ∈ (names.fresh stem).2.used ↔ u = (names.fresh stem).1 ∨ u ∈ names.used := by
  simp [fresh]

/-- In the beginning the variables and the terminals of the grammar are in use. -/
@[simp] lemma mem_used_ofGrammar {g : Grammar} {firstIndex : UInt64} {u : Name} :
    u ∈ (ofGrammar g firstIndex).used ↔ u ∈ g.nonterminals ∨ u ∈ g.terminals := by
  simp [ofGrammar]

end FreshNames

end ChomskyForm
