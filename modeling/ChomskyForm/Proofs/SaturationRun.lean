import Mathlib.Algebra.BigOperators.Group.List.Basic
import Mathlib.Algebra.GroupWithZero.Nat
import Mathlib.Data.List.Infix
import Mathlib.Data.List.Permutation
import ChomskyForm.Proofs.ExactAnalyses

set_option autoImplicit false
set_option relaxedAutoImplicit false

/-!
# The run of a saturation

A saturation looks at the clauses one after the other and then goes on step by step. At each moment
the names found are a record of what has entered the queue: a name enters once, and the record only
grows. A count is never counted down from zero, since the agenda has as many occurrences of a
clause as its count has beyond the unsettled ones. A name costs one step to be settled and one for
each of its occurrences, which says exactly when the run ends.

## Main definitions

* `ChomskyForm.Saturation.after?`: the state after some steps.
* `ChomskyForm.Saturation.duration`: the number of steps of a run.
* `ChomskyForm.Saturation.Timed`: what relates a state to the number of steps before it.
* `ChomskyForm.Grammar.countedRules`: the alternatives that are counted.

## Main results

* `ChomskyForm.Saturation.Timed.step`: a step keeps that relation.
* `ChomskyForm.Saturation.Counted.exists_pending`: what is counted down is not zero.
* `ChomskyForm.Saturation.after?_eq_none_iff`: when the run is over.
* `ChomskyForm.Grammar.Attainable.counts_exact`: the counts of the two analyses.
-/

namespace ChomskyForm

namespace Saturation

variable {clauses : List Clause} {s t : Saturation} {n : Nat}

/-! ## Steps -/

/-- **The state after `n` steps**, unless the run is over before. In this way a state of the run is
known by its time, while the saturation itself only keeps the last one. -/
def after? (clauses : List Clause) : Nat → Option Saturation
  | 0 => some (start clauses)
  | n + 1 => (after? clauses n).bind (step? clauses)

/-- **The steps that a name takes**: one to settle it, and one for each of its occurrences in the
bodies of clauses. -/
def stepsFor (clauses : List Clause) (v : Name) : Nat :=
  1 + (clauses.map (·.body.count v)).sum

/-- **The number of steps of a run**: those of all names that are found. -/
def duration (clauses : List Clause) : Nat :=
  ((saturate clauses).toList.map (stepsFor clauses)).sum

/-- A step counts an occurrence of the agenda or, when there is none, settles a name. There is no
other step, so what steps keep is shown in these two cases. -/
lemma step?_cases (h : step? clauses s = some t) :
    (∃ i agenda, s.agenda = i :: agenda ∧ t = countDown clauses { s with agenda := agenda } i) ∨
      ∃ v queue, s.agenda = [] ∧ s.queue = v :: queue ∧ t = settle clauses s v queue := by
  unfold step? at h
  split at h
  · next i agenda hagenda => exact .inl ⟨i, agenda, hagenda, (Option.some.inj h).symm⟩
  · next v queue hagenda hqueue =>
    exact .inr ⟨v, queue, hagenda, hqueue, (Option.some.inj h).symm⟩
  · cases h

/-- Counting settles nothing, even if a name is found. -/
lemma settled_countDown (clauses : List Clause) (s : Saturation) (i : Nat) :
    (countDown clauses s i).settled = s.settled := by
  unfold countDown
  dsimp only
  split
  · rw [settled_find]
  · rfl

/-- Counting keeps the counts of all clauses: one of them changes, and none is added or removed. -/
lemma size_pending_countDown (clauses : List Clause) (s : Saturation) (i : Nat) :
    (countDown clauses s i).pending.size = s.pending.size := by
  unfold countDown
  dsimp only
  split
  · rw [pending_find, Array.size_modify]
  · rw [Array.size_modify]

/-! ## The record of the names found -/

/-- **The record only grows**: what has been found stays found, in the same order. -/
lemma found_prefix_of_step? (h : step? clauses s = some t) : s.found <+: t.found := by
  rcases step?_cases h with ⟨i, agenda, -, rfl⟩ | ⟨v, queue, -, hqueue, rfl⟩
  · rcases (countDown_cases clauses { s with agenda := agenda } i).2 with
      ⟨-, hfound⟩ | ⟨c, -, -, hfound⟩
    · rw [hfound]
      exact List.prefix_refl _
    · rw [hfound]
      exact List.prefix_append _ _
  · simp [settle, found, hqueue]

/-- Finding names one after the other adds to the record, unless they have all been found before. -/
lemma found_prefix_foldl_find (names : List Name) (s : Saturation) :
    s.found <+: (names.foldl find s).found := by
  induction names generalizing s with
  | nil => exact List.prefix_refl _
  | cons v names ih =>
    refine List.IsPrefix.trans ?_ (ih (s.find v))
    rw [found_find]
    split
    · exact List.prefix_refl _
    · exact List.prefix_append _ _

/-- What is found does not depend on the counts, but only on what has been found before. -/
lemma found_foldl_find_congr (names : List Name) (h : s.found = t.found) :
    (names.foldl find s).found = (names.foldl find t).found := by
  induction names generalizing s t with
  | nil => exact h
  | cons v names ih => exact ih (by rw [found_find, found_find, h])

/-- **While the clauses are looked at** the record grows, too: after the first few of them it is
the beginning of what it is after all. -/
lemma found_start_take_prefix (clauses : List Clause) (k : Nat) :
    (start (clauses.take k)).found <+: (start clauses).found := by
  have hsplit : ((clauses.filter (·.body.isEmpty)).map (·.head)) =
      (((clauses.take k).filter (·.body.isEmpty)).map (·.head)) ++
        (((clauses.drop k).filter (·.body.isEmpty)).map (·.head)) := by
    rw [← List.map_append, ← List.filter_append, List.take_append_drop]
  unfold start
  rw [hsplit, List.foldl_append]
  refine List.IsPrefix.trans ?_ (found_prefix_foldl_find _ _)
  rw [found_foldl_find_congr (s := ⟨((clauses.take k).map (·.body.length)).toArray, [], [], []⟩)
    (t := ⟨(clauses.map (·.body.length)).toArray, [], [], []⟩) _ rfl]

/-! ## Time -/

/-- The list of occurrences of a name is as long as the number of times that bodies of clauses
mention it. -/
lemma length_occurrences (clauses : List Clause) (v : Name) :
    (occurrences clauses v).length = (clauses.map (·.body.count v)).sum := by
  have hclauses : clauses.zipIdx.map Prod.fst = clauses := List.zipIdx_map_fst 0 clauses
  rw [occurrences, List.length_flatMap]
  nth_rewrite 2 [← hclauses]
  rw [List.map_map]
  simp [Function.comp_def]

/-- An occurrence is noted down by the number of its clause, so there is a clause with this
number. -/
lemma exists_of_mem_occurrences {v : Name} {i : Nat} (h : i ∈ occurrences clauses v) :
    ∃ c, clauses[i]? = some c := by
  obtain ⟨⟨c, k⟩, hc, hi⟩ := List.mem_flatMap.1 h
  obtain rfl := List.eq_of_mem_replicate hi
  exact ⟨c, List.mem_zipIdx_iff_getElem?.1 hc⟩

/-- **What relates a state to the steps before it.** The clock is the main point: settling a name
puts on the agenda what counting will take from it, step by step. -/
structure Timed (clauses : List Clause) (n : Nat) (s : Saturation) : Prop where
  /-- Together with what waits on the agenda, the steps are those that the settled names take. -/
  clock : n + s.agenda.length = (s.settled.map (stepsFor clauses)).sum
  /-- The agenda lists clauses. -/
  agenda : ∀ i ∈ s.agenda, ∃ c, clauses[i]? = some c
  /-- Every clause has a count. -/
  size : s.pending.size = clauses.length

/-- In the beginning no time has passed: nothing is settled, and the agenda is empty. -/
lemma timed_start (clauses : List Clause) : Timed clauses 0 (start clauses) := by
  obtain ⟨hpending, hsettled, hagenda, -⟩ :=
    foldl_find (s := ⟨(clauses.map (·.body.length)).toArray, [], [], []⟩)
      ((clauses.filter (·.body.isEmpty)).map (·.head)) (by simp [found])
  refine ⟨?_, ?_, ?_⟩
  · rw [start, hsettled, hagenda]
    rfl
  · rw [start, hagenda]
    simp
  · rw [start, hpending]
    simp

/-- **A step takes its time.** Counting takes an occurrence from the agenda; settling puts all
occurrences of the name there.

**Proof sketch.** Counting moves one unit of time from the agenda to the steps made. Settling a
name adds to the agenda as many occurrences as the name takes steps, less the one step that settles
it. -/
lemma Timed.step (h : Timed clauses n s) (hstep : step? clauses s = some t) :
    Timed clauses (n + 1) t := by
  obtain ⟨hclock, hagenda, hsize⟩ := h
  rcases step?_cases hstep with ⟨i, agenda, hs, rfl⟩ | ⟨v, queue, hs, -, rfl⟩
  · have hrest := (countDown_cases clauses { s with agenda := agenda } i).1
    rw [hs] at hclock hagenda
    refine ⟨?_, ?_, ?_⟩
    · rw [settled_countDown, hrest, ← hclock, List.length_cons, Nat.add_right_comm, Nat.add_assoc]
    · rw [hrest]
      exact fun k hk => hagenda k (List.mem_cons_of_mem i hk)
    · rw [size_pending_countDown, hsize]
  · rw [hs, List.length_nil] at hclock
    refine ⟨?_, fun i hi => exists_of_mem_occurrences hi, hsize⟩
    simp only [settle, List.map_append, List.sum_append, ← hclock, length_occurrences,
      List.map_cons,
      List.map_nil, List.sum_singleton, stepsFor]
    omega

/-- **Every state of the run** has both invariants, by induction on the number of steps. -/
lemma invariants_after? (h : after? clauses n = some s) :
    Counted clauses s ∧ Timed clauses n s := by
  induction n generalizing s with
  | zero =>
    obtain rfl := Option.some.inj h
    exact ⟨counted_start clauses, timed_start clauses⟩
  | succ n ih =>
    obtain ⟨r, hr, hstep⟩ := Option.bind_eq_some_iff.1 h
    obtain ⟨hcounted, htimed⟩ := ih hr
    exact ⟨hcounted.step hstep, htimed.step hstep⟩

/-- **What is counted down is not zero**: the occurrence that comes next on the agenda is part of
the count, which is that of the unsettled occurrences and of those on the agenda. -/
lemma Counted.exists_pending (h : Counted clauses s) {i : Nat} {agenda : List Nat}
    (hagenda : s.agenda = i :: agenda) {c : Clause} (hc : clauses[i]? = some c) :
    ∃ m, s.pending[i]? = some (m + 1) := by
  refine ⟨outside s.settled c.body + agenda.count i, ?_⟩
  rw [h.count i c hc, hagenda, List.count_cons_self, Nat.add_assoc]

/-! ## The end of the run -/

/-- The end of a run is the state after some number of steps. -/
lemma exists_after?_eq_run (h : after? clauses n = some s) :
    ∃ m, after? clauses m = some (run clauses s) := by
  fun_induction run clauses s generalizing n with
  | case1 s t hstep ih => exact ih (n := n + 1) (by rw [after?, h]; exact hstep)
  | case2 s _ => exact ⟨n, h⟩

/-- A run that is over stays over. -/
lemma after?_eq_none_of_le {m : Nat} (h : after? clauses n = none) (hle : n ≤ m) :
    after? clauses m = none := by
  induction hle with
  | refl => exact h
  | step _ ih =>
    rw [after?, ih]
    rfl

/-- When no step is left, the settled names are the set that was looked for, in some order and each
of them once. -/
lemma settled_run_perm (clauses : List Clause) :
    (run clauses (start clauses)).settled.Perm (saturate clauses).toList := by
  obtain ⟨-, hfound⟩ := settled_of_step?_eq_none (step?_run clauses (start clauses))
  have hnodup := (counted_start clauses).run.nodup
  rw [hfound] at hnodup
  refine (List.perm_ext_iff_of_nodup hnodup (saturate clauses).nodup_toList).2 fun v => ?_
  rw [← SortedSet.mem_def, saturate, SortedSet.mem_ofList, hfound]

/-- **The run ends** after the steps that the names of the set take.

**Proof sketch.** After some number of steps none is left. Then the agenda is empty, so this number
is what the settled names take, and these are the names of the set. -/
theorem after?_duration (clauses : List Clause) :
    after? clauses (duration clauses) = some (run clauses (start clauses)) := by
  obtain ⟨n, hn⟩ := exists_after?_eq_run (n := 0) (s := start clauses) rfl
  obtain ⟨hagenda, -⟩ := settled_of_step?_eq_none (step?_run clauses (start clauses))
  -- the agenda is empty at the end, so the clock gives the number of steps itself
  have hclock := (invariants_after? hn).2.clock
  rw [hagenda] at hclock
  have hduration : n = duration clauses :=
    hclock.trans ((settled_run_perm clauses).map (stepsFor clauses)).sum_eq
  rwa [← hduration]

/-- **The run is over** when there have been that many steps, and not before. After the last one
there is no further step, and before it each state has a next one. -/
theorem after?_eq_none_iff : after? clauses n = none ↔ duration clauses < n := by
  have hlast := after?_duration clauses
  constructor
  · intro hnone
    by_contra hle
    rw [after?_eq_none_of_le hnone (Nat.le_of_not_lt hle)] at hlast
    cases hlast
  · intro hlt
    refine after?_eq_none_of_le ?_ hlt
    rw [after?, hlast]
    exact step?_run clauses (start clauses)

end Saturation

/-! ## The counts of a grammar -/

namespace Grammar

open Saturation

variable {g : Grammar} {terminals : Bool} {s : Saturation}

/-- **The alternatives that are counted**: those with a terminal only where terminals are admitted.
Terminals are admitted for productive variables, and not for nullable ones. -/
def countedRules (g : Grammar) (terminals : Bool) : List Rule :=
  g.rules.filter fun r => terminals || !r.right.any Symbol.isTerminal

/-- **The saturation of a grammar** after `n` steps, with terminals admitted or not. -/
def saturationAfter? (g : Grammar) (terminals : Bool) (n : Nat) : Option Saturation :=
  after? (g.clauses terminals) n

/-- The clauses of a grammar are its counted alternatives, in their order. -/
lemma clauses_eq_map (g : Grammar) (terminals : Bool) :
    g.clauses terminals = (g.countedRules terminals).map Rule.toClause := rfl

/-- So a clause has the number of the alternative that it is made of. -/
lemma getElem?_clauses {i : Nat} {c : Clause} :
    (g.clauses terminals)[i]? = some c ↔
      ∃ r, (g.countedRules terminals)[i]? = some r ∧ r.toClause = c := by
  rw [clauses_eq_map, List.getElem?_map, Option.map_eq_some_iff]

/-- Only variables are found: what is found generates a word, so it has an alternative. -/
lemma WellFormed.mem_nonterminals_of_found (hg : g.WellFormed) (h : Counted (g.clauses terminals) s)
    {v : Name} (hv : v ∈ s.found) : v ∈ g.nonterminals := by
  obtain ⟨w, -, hw⟩ := entails_clauses.1 (h.sound v hv)
  exact mem_nonterminals_of_productive hg (mem_productive.2 ⟨w, hw⟩)

/-- **The counts are exact.** In the saturations of an attainable grammar, with terminals admitted
or not, no variable enters the queue twice, neither while the alternatives are looked at nor in any
step after that. Whenever no occurrence is left to be counted, the count of each alternative is the
number of its occurrences of variables that have not been taken from the queue; and when an
occurrence is counted, the count is not zero. The run ends after one step for each variable found
and one for each of its occurrences, and the variables taken are the result.

**Proof sketch.** Every state of the run satisfies `Counted`, which is what the counts are, and
`Timed`, which is when the run ends. The first says that no name is found twice, and gives the
counts when the agenda is empty; the second says what the agenda and the counts are about. -/
theorem Attainable.counts_exact (h : g.Attainable) (terminals : Bool) :
    (∀ k, (Saturation.start ((g.clauses terminals).take k)).found.Nodup ∧
      (Saturation.start ((g.clauses terminals).take k)).found <+:
        (Saturation.start (g.clauses terminals)).found) ∧
    (∀ n s, g.saturationAfter? terminals n = some s →
      s.found.Nodup ∧ (∀ v ∈ s.found, v ∈ g.nonterminals) ∧
      s.pending.size = (g.countedRules terminals).length ∧
      (s.agenda = [] → ∀ (i : Nat) (r : Rule), (g.countedRules terminals)[i]? = some r →
        s.pending[i]? = some ((Symbol.variablesOf r.right).countP (· ∉ s.settled))) ∧
      (∀ i agenda, s.agenda = i :: agenda →
        ∃ r m, (g.countedRules terminals)[i]? = some r ∧ s.pending[i]? = some (m + 1))) ∧
    (∀ n s t, g.saturationAfter? terminals n = some s →
      g.saturationAfter? terminals (n + 1) = some t →
      s.found <+: t.found) ∧
    (∀ n, g.saturationAfter? terminals n = none ↔ duration (g.clauses terminals) < n) ∧
    ∃ last, g.saturationAfter? terminals (duration (g.clauses terminals)) = some last ∧
      last.queue = [] ∧ last.agenda = [] ∧
        ∀ v, v ∈ saturate (g.clauses terminals) ↔ v ∈ last.settled := by
  refine ⟨fun k => ⟨(counted_start _).nodup, found_start_take_prefix _ k⟩, fun n s hs => ?_,
    fun n s t hs ht => ?_, fun n => after?_eq_none_iff, _, after?_duration _, ?_⟩
  · obtain ⟨hcounted, htimed⟩ := invariants_after? hs
    refine ⟨hcounted.nodup, fun v => h.wellFormed.mem_nonterminals_of_found hcounted,
      by rw [htimed.size, clauses_eq_map, List.length_map], fun hagenda i r hr => ?_,
      fun i agenda hagenda => ?_⟩
    · rw [hcounted.count i _ (getElem?_clauses.2 ⟨r, hr, rfl⟩), hagenda, List.count_nil,
        Nat.add_zero,
        outside, List.countP_eq_length_filter]
      rfl
    · obtain ⟨c, hc⟩ := htimed.agenda i (hagenda ▸ List.mem_cons_self)
      obtain ⟨m, hm⟩ := hcounted.exists_pending hagenda hc
      obtain ⟨r, hr, -⟩ := getElem?_clauses.1 hc
      exact ⟨r, m, hr, hm⟩
  · rw [saturationAfter?] at hs ht
    rw [after?, hs] at ht
    exact found_prefix_of_step? ht
  · obtain ⟨hagenda, hfound⟩ :=
      settled_of_step?_eq_none
        (step?_run (g.clauses terminals) (Saturation.start (g.clauses terminals)))
    refine ⟨?_, hagenda, fun v => ?_⟩
    · simpa [found] using hfound
    · rw [SortedSet.mem_def]
      exact (settled_run_perm _).mem_iff.symm

/-- The run for the productive variables of the grammar of doubling takes six steps. Two
alternatives of `A` are complete from the beginning, but `A` enters the queue once. When `A` has
been taken, both of its occurrences in `S → A A` are to be counted, and the count is not zero.
After three steps none is left to be counted, and the count of `S → S S` is two. -/
theorem counts_exact_doubling :
    doubling.toGrammar.Attainable ∧
      (∃ s, doubling.toGrammar.saturationAfter? true 1 = some s ∧ s.settled = ["A"] ∧
        s.agenda = [3, 3] ∧ s.found.Nodup ∧ ∃ m, s.pending[3]? = some (m + 1)) ∧
      (∃ s, doubling.toGrammar.saturationAfter? true 3 = some s ∧ s.agenda = [] ∧
        s.pending[4]? = some 2) ∧
      doubling.toGrammar.saturationAfter? true 6 ≠ none ∧
      doubling.toGrammar.saturationAfter? true 7 = none := by
  obtain ⟨-, hstates, -, hends, -⟩ := Attainable.counts_exact attainable_doubling true
  have hduration : duration (doubling.toGrammar.clauses true) = 6 := by cbv
  have hfirst : doubling.toGrammar.saturationAfter? true 1 =
      some ⟨#[0, 0, 2, 2, 2], ["A"], [], [3, 3]⟩ := by cbv
  have hthird : doubling.toGrammar.saturationAfter? true 3 =
      some ⟨#[0, 0, 2, 0, 2], ["A"], ["S"], []⟩ := by cbv
  have hrule : (doubling.toGrammar.countedRules true)[4]? =
      some ⟨"S", [.nonterminal "S", .nonterminal "S"]⟩ := by cbv
  rw [hduration] at hends
  obtain ⟨hnodup, -, -, -, hpositive⟩ := hstates 1 _ hfirst
  obtain ⟨-, m, -, hm⟩ := hpositive 3 [3] rfl
  obtain ⟨-, -, -, hcount, -⟩ := hstates 3 _ hthird
  refine ⟨attainable_doubling, ⟨_, hfirst, rfl, rfl, hnodup, m, hm⟩, ⟨_, hthird, rfl, ?_⟩, ?_,
    (hends 7).2 (by decide)⟩
  · exact hcount rfl 4 _ hrule
  · exact fun hnone => absurd ((hends 6).1 hnone) (by decide)

end Grammar

end ChomskyForm
