import Mathlib.Data.List.Chain
import Mathlib.Data.List.ProdSigma
import ChomskyForm.Proofs.SparingGeneration

set_option autoImplicit false
set_option relaxedAutoImplicit false

/-!
# Unit pairs, one pair at a time

Unit pairs are defined by a search from each variable on its own. They can also be found by a
single search over pairs of a source and a name met from it: a pair that waits is taken, and each
successor of its name that has not been met from its source gives a new pair, which waits in turn.
Whichever pair is taken in each round, such a search ends, and it finds the same pairs.

## Main definitions

* `ChomskyForm.PairSearch`: the state of a search over pairs.
* `ChomskyForm.PairSearch.Step`: one round of it.
* `ChomskyForm.PairSearch.Sound`: the invariant of the search.

## Main results

* `ChomskyForm.PairSearch.Sound.step`: every round keeps the invariant.
* `ChomskyForm.PairSearch.Sound.length_le`: a bound for the number of rounds.
* `ChomskyForm.PairSearch.Sound.met_eq`: what has been met when no pair waits any more.
* `ChomskyForm.Grammar.unitPairs_exact`: unit pairs are the chains of unit alternatives, and every
  search over pairs finds them.
-/

namespace ChomskyForm

open Relation

/-- **The state of a search over pairs.** A pair consists of a source, which is a variable, and of
a name that unit steps from this source have led to. What has been met is kept source by source, as
in the table of unit pairs, so that the end of the search can be compared with this table. -/
structure PairSearch where
  /-- The names met so far, by source. -/
  met : SortedMap Name (SortedSet Name)
  /-- The pairs of a source and a name met from it whose successors have not been looked at. -/
  waiting : List (Name × Name)

namespace PairSearch

variable {d : Digraph} {sources : SortedSet Name} {s t : PairSearch} {source v u : Name}

/-- The names met from a source. Nothing has been met from what is not a source. -/
def metFrom (s : PairSearch) (source : Name) : SortedSet Name := (s.met.get? source).getD ∅

/-- **The beginning.** From each source only itself has been met, and its successors have not been
looked at yet, so the pair waits. -/
def start (sources : SortedSet Name) : PairSearch :=
  ⟨SortedMap.ofKeys sources SortedSet.singleton, sources.toList.map fun v => (v, v)⟩

/-- **Meeting a name** from a source. If it is met for the first time, the pair waits. Otherwise
nothing changes, so that no pair waits a second time. -/
def meet (s : PairSearch) (source u : Name) : PairSearch :=
  if u ∈ s.metFrom source then s
  else ⟨s.met.insert source ((s.metFrom source).insert u), s.waiting ++ [(source, u)]⟩

/-- Meeting several names from a source, in the order in which they are given. -/
def meetAll (s : PairSearch) (source : Name) (names : List Name) : PairSearch :=
  names.foldl (fun s u => s.meet source u) s

/-- **One round.** Any of the waiting pairs is taken, and the successors of its name are met. Which
pair it is does not matter, so this relation stands for queues, stacks and all other orders. -/
inductive Step (d : Digraph) : PairSearch → PairSearch → Prop where
  /-- A pair is taken, wherever it stands among those that wait. -/
  | expand {met : SortedMap Name (SortedSet Name)} (before after : List (Name × Name))
      (source via : Name) :
      Step d ⟨met, before ++ (source, via) :: after⟩
        (meetAll ⟨met, before ++ after⟩ source (d.next via))

/-! ## Meeting names -/

/-- What has been met from a source after one more name. -/
lemma mem_metFrom_meet {x : Name} :
    x ∈ (s.meet source u).metFrom v ↔ x ∈ s.metFrom v ∨ v = source ∧ x = u := by
  unfold meet
  split
  · next hu =>
    refine ⟨.inl, ?_⟩
    rintro (hx | ⟨rfl, rfl⟩)
    · exact hx
    · exact hu
  · by_cases hv : v = source
    · subst hv
      simp [metFrom, SortedMap.get?_insert, or_comm]
    · simp [metFrom, SortedMap.get?_insert, hv]

/-- What has been met from a source after several more names. -/
lemma mem_metFrom_meetAll {names : List Name} {x : Name} :
    x ∈ (s.meetAll source names).metFrom v ↔ x ∈ s.metFrom v ∨ v = source ∧ x ∈ names := by
  unfold meetAll
  induction names generalizing s with
  | nil => simp
  | cons u names ih =>
    rw [List.foldl_cons, ih, mem_metFrom_meet, List.mem_cons, or_assoc, and_or_left]

/-- A name that is met for the first time waits, and so does what waited before. -/
lemma mem_waiting_meet {p : Name × Name} :
    p ∈ (s.meet source u).waiting ↔ p ∈ s.waiting ∨ u ∉ s.metFrom source ∧ p = (source, u) := by
  unfold meet
  split
  · next hu => simp [hu]
  · next hu => simp [hu]

/-- The names that are met for the first time wait, and so does what waited before. The names are
tested one after another, but whether a name is new can be decided before the first of them is met:
a name that is given twice waits because of its first occurrence. -/
lemma mem_waiting_meetAll {names : List Name} {p : Name × Name} :
    p ∈ (s.meetAll source names).waiting ↔
      p ∈ s.waiting ∨ ∃ u ∈ names, u ∉ s.metFrom source ∧ p = (source, u) := by
  unfold meetAll
  induction names generalizing s with
  | nil => simp
  | cons u names ih =>
    rw [List.foldl_cons, ih, mem_waiting_meet]
    simp only [mem_metFrom_meet, true_and, List.exists_mem_cons_iff, not_or, or_assoc]
    refine or_congr_right ⟨?_, ?_⟩
    · rintro (hu | ⟨x, hx, ⟨hnew, -⟩, rfl⟩)
      · exact .inl hu
      · exact .inr ⟨x, hx, hnew, rfl⟩
    · rintro (hu | ⟨x, hx, hnew, rfl⟩)
      · exact .inl hu
      · -- a later occurrence of the first name is not met for the first time
        by_cases hxu : x = u
        · exact .inl ⟨hxu ▸ hnew, by rw [hxu]⟩
        · exact .inr ⟨x, hx, ⟨hnew, hxu⟩, rfl⟩

/-- Meeting names adds no source, as only the entry of a source that is there changes. -/
lemma keys_meetAll {names : List Name} (hsource : source ∈ s.met.keys) :
    (s.meetAll source names).met.keys = s.met.keys := by
  unfold meetAll
  induction names generalizing s with
  | nil => rfl
  | cons u names ih =>
    have hkeys : (s.meet source u).met.keys = s.met.keys := by
      unfold meet
      split
      · rfl
      · refine SortedSet.ext fun v => ?_
        simp only [SortedMap.mem_keys_iff_isSome] at hsource ⊢
        rw [SortedMap.get?_insert]
        split
        · next hv => simp [hv, hsource]
        · rfl
    rw [List.foldl_cons, ih (hkeys ▸ hsource), hkeys]

/-! ## The invariant -/

/-- **The invariant of a search over pairs.** The last two fields carry the result: what has been
met is always part of what edges lead to, and it is closed under edges but for the pairs that
wait. -/
structure Sound (d : Digraph) (sources : SortedSet Name) (s : PairSearch) : Prop where
  /-- There is an entry for each source, and for nothing else. -/
  keys : s.met.keys = sources
  /-- Each source has been met from itself. -/
  self : ∀ v ∈ sources, v ∈ s.metFrom v
  /-- What waits has been met from a source. -/
  waits : ∀ v u, (v, u) ∈ s.waiting → v ∈ sources ∧ u ∈ s.metFrom v
  /-- Only what edges lead to has been met. -/
  reached : ∀ v, ∀ u ∈ s.metFrom v, ReflTransGen (fun a b => b ∈ d.next a) v u
  /-- A pair waits, or the successors of its name have been met. -/
  expanded : ∀ v, ∀ u ∈ s.metFrom v, (v, u) ∈ s.waiting ∨ ∀ x ∈ d.next u, x ∈ s.metFrom v

/-- In the beginning the invariant holds: a name has been met from a source, and waits, exactly
when it is this source.

**Proof sketch.** What has been met from a name and what waits are computed, and the fields of the
invariant are read off from this. -/
lemma sound_start : Sound d sources (start sources) := by
  have hmet : ∀ v u, u ∈ (start sources).metFrom v ↔ v ∈ sources ∧ u = v := by
    intro v u
    rw [metFrom, start, SortedMap.get?_ofKeys]
    by_cases hv : v ∈ sources <;> simp [hv]
  have hwaiting : ∀ v u, (v, u) ∈ (start sources).waiting ↔ v ∈ sources ∧ u = v := by
    intro v u
    simp only [start, List.mem_map, Prod.mk.injEq, SortedSet.mem_def]
    constructor
    · rintro ⟨_, hx, rfl, rfl⟩
      exact ⟨hx, rfl⟩
    · rintro ⟨hv, rfl⟩
      exact ⟨u, hv, rfl, rfl⟩
  refine ⟨SortedMap.keys_ofKeys, fun v hv => (hmet v v).2 ⟨hv, rfl⟩, fun v u h => ?_,
    fun v u h => ?_,
    fun v u h => .inl ((hwaiting v u).2 ((hmet v u).1 h))⟩
  · exact ⟨((hwaiting v u).1 h).1, (hmet v u).2 ((hwaiting v u).1 h)⟩
  · rw [((hmet v u).1 h).2]

/-- **Every round keeps the invariant.**

**Proof sketch.** The pair that is taken has been met from a source, so edges lead to the
successors of its name as well, and after the round they have all been met. Any other pair that
waited still waits, and the pairs found in this round wait now. -/
lemma Sound.step (h : Sound d sources s) (hstep : Step d s t) : Sound d sources t := by
  obtain ⟨before, after, source, via⟩ := hstep
  next met =>
  set s' : PairSearch := ⟨met, before ++ after⟩
  obtain ⟨hsource, hvia⟩ := h.waits source via (by simp)
  have hkeys : s'.met.keys = sources := h.keys
  have hmet : ∀ v u, u ∈ (s'.meetAll source (d.next via)).metFrom v ↔
      u ∈ s'.metFrom v ∨ v = source ∧ u ∈ d.next via := fun v u => mem_metFrom_meetAll
  refine ⟨(keys_meetAll (hkeys ▸ hsource)).trans hkeys,
    fun v hv => (hmet v v).2 (.inl (h.self v hv)),
    fun v u hw => ?_, fun v u hu => ?_, fun v u hu => ?_⟩
  · rcases mem_waiting_meetAll.1 hw with hw | ⟨x, hx, -, heq⟩
    · obtain ⟨hv, hu⟩ := h.waits v u (by
        rcases List.mem_append.1 hw with hw | hw
        · exact List.mem_append_left _ hw
        · exact List.mem_append_right _ (List.mem_cons_of_mem _ hw))
      exact ⟨hv, (hmet v u).2 (.inl hu)⟩
    · obtain ⟨rfl, rfl⟩ := Prod.mk.inj heq
      exact ⟨hsource, (hmet v u).2 (.inr ⟨rfl, hx⟩)⟩
  · rcases (hmet v u).1 hu with hold | ⟨rfl, hnext⟩
    · exact h.reached v u hold
    · exact (h.reached v via hvia).tail hnext
  · by_cases hold : u ∈ s'.metFrom v
    · rcases h.expanded v u hold with hw | hnext
      · rcases List.mem_append.1 hw with hw | hw
        · exact .inl (mem_waiting_meetAll.2 (.inl (List.mem_append_left _ hw)))
        rcases List.mem_cons.1 hw with heq | hw
        · -- the pair that is taken
          obtain ⟨rfl, rfl⟩ := Prod.mk.inj heq
          exact .inr fun x hx => (hmet v x).2 (.inr ⟨rfl, hx⟩)
        · exact .inl (mem_waiting_meetAll.2 (.inl (List.mem_append_right _ hw)))
      · exact .inr fun x hx => (hmet v x).2 (.inl (hnext x hx))
    · obtain ⟨rfl, hnext⟩ := ((hmet v u).1 hu).resolve_left hold
      exact .inl (mem_waiting_meetAll.2 (.inr ⟨u, hnext, hold, rfl⟩))

/-! ## The end of the search -/

/-- The number of pairs of a source and a target of edges that have not been met. -/
def missing (d : Digraph) (sources : SortedSet Name) (s : PairSearch) : Nat :=
  ((sources.toList ×ˢ d.targets).filter fun p => p.2 ∉ s.metFrom p.1).length

/-- **What is left to do**: each missing pair may still be met and then be taken. Meeting it adds
one waiting pair and takes away one missing pair, so a missing pair counts twice. -/
def work (d : Digraph) (sources : SortedSet Name) (s : PairSearch) : Nat :=
  2 * s.missing d sources + s.waiting.length

/-- Meeting a target from a source leaves no more to do than before: it is one pair more that
waits, and at least one pair less that is missing. -/
lemma work_meet_le (hsource : source ∈ sources) (hu : u ∈ d.targets) :
    (s.meet source u).work d sources ≤ s.work d sources := by
  by_cases hold : u ∈ s.metFrom source
  · rw [meet, if_pos hold]
  · have hlt : (s.meet source u).missing d sources < s.missing d sources := by
      refine length_filter_lt_length_filter (a := (source, u)) (fun p _ hp => ?_)
        (List.mem_product.2 ⟨hsource, hu⟩) (decide_eq_true hold)
        (decide_eq_false fun hn => hn (mem_metFrom_meet.2 (.inr ⟨rfl, rfl⟩)))
      exact decide_eq_true fun hm => of_decide_eq_true hp (mem_metFrom_meet.2 (.inl hm))
    have hwaiting : (s.meet source u).waiting.length = s.waiting.length + 1 := by
      rw [meet, if_neg hold, List.length_append, List.length_singleton]
    unfold work
    omega

/-- Meeting several targets from a source leaves no more to do than before. -/
lemma work_meetAll_le {names : List Name} (hsource : source ∈ sources)
    (hnames : ∀ u ∈ names, u ∈ d.targets) :
    (s.meetAll source names).work d sources ≤ s.work d sources := by
  unfold meetAll
  induction names generalizing s with
  | nil => exact Nat.le_refl _
  | cons u names ih =>
    exact (ih fun x hx => hnames x (List.mem_cons_of_mem _ hx)).trans
      (work_meet_le hsource (hnames u List.mem_cons_self))

/-- **Every round leaves less to do**: one pair does not wait any more, and meeting the successors
of its name makes up for what they add. -/
lemma Sound.work_lt (h : Sound d sources s) (hstep : Step d s t) :
    t.work d sources < s.work d sources := by
  obtain ⟨before, after, source, via⟩ := hstep
  next met =>
  obtain ⟨hsource, -⟩ := h.waits source via (by simp)
  have htargets : ∀ u ∈ d.next via, u ∈ d.targets := fun u hu => Digraph.mem_targets_of_mem_next hu
  have hle := work_meetAll_le (s := ⟨met, before ++ after⟩) hsource htargets
  refine Nat.lt_of_le_of_lt hle ?_
  have hmissing : missing d sources ⟨met, before ++ after⟩ =
      missing d sources ⟨met, before ++ (source, via) :: after⟩ := rfl
  simp only [work, hmissing, List.length_append, List.length_cons]
  omega

/-- In the beginning there is at most this much to do: all pairs but those that wait may be
missing. -/
lemma work_start_le :
    (start sources).work d sources ≤ sources.size * (2 * d.targets.length + 1) := by
  have hmissing : (start sources).missing d sources ≤ sources.size * d.targets.length := by
    refine (List.length_filter_le _ _).trans_eq ?_
    rw [List.length_product, SortedSet.size]
  have hwaiting : (start sources).waiting.length = sources.size := by
    rw [start, List.length_map, SortedSet.size]
  rw [work, hwaiting, Nat.mul_add, Nat.mul_one, Nat.mul_left_comm]
  omega

/-- **The search ends.** In any order of the pairs, there are no more rounds than there is to do.
The invariant holds in all states.

**Proof sketch.** By induction on the states that follow: the first round keeps the invariant and
leaves less to do, and the other rounds are a shorter search of the same kind. -/
lemma Sound.length_le {states : List PairSearch} (h : Sound d sources s)
    (hstates : (s :: states).IsChain (Step d)) :
    states.length ≤ s.work d sources ∧ ∀ t ∈ s :: states, Sound d sources t := by
  induction states generalizing s with
  | nil =>
    refine ⟨Nat.zero_le _, fun t ht => ?_⟩
    rwa [List.mem_singleton.1 ht]
  | cons t states ih =>
    obtain ⟨hstep, hrest⟩ := List.isChain_cons_cons.1 hstates
    obtain ⟨hle, hsound⟩ := ih (h.step hstep) hrest
    have hlt := h.work_lt hstep
    refine ⟨by rw [List.length_cons]; omega, fun x hx => ?_⟩
    rcases List.mem_cons.1 hx with rfl | hx
    · exact h
    · exact hsound x hx

/-- A search can go on as long as some pair waits, so in its last state none does. -/
lemma waiting_eq_nil (hend : ∀ t, ¬ Step d s t) : s.waiting = [] := by
  obtain ⟨met, waiting⟩ := s
  cases waiting with
  | nil => rfl
  | cons pair waiting => exact absurd (.expand [] waiting pair.1 pair.2) (hend _)

/-- **The result of the search.** When it cannot go on, the names met from each source are those
that can be reached from it.

**Proof sketch.** No pair waits any more, so what has been met from a source is closed under edges.
It holds the source, so it holds everything that edges lead to, and by the invariant it holds
nothing else. -/
lemma Sound.met_eq (h : Sound d sources s) (hend : ∀ t, ¬ Step d s t) :
    s.met = SortedMap.ofKeys sources d.reachableFrom := by
  have hclosed : ∀ v, ∀ u ∈ s.metFrom v, ∀ x ∈ d.next u, x ∈ s.metFrom v := by
    intro v u hu
    refine (h.expanded v u hu).resolve_left fun hw => ?_
    rw [waiting_eq_nil hend] at hw
    cases hw
  refine SortedMap.ext fun v => ?_
  rw [SortedMap.get?_ofKeys]
  cases hv : s.met.get? v with
  | none =>
    have hnone : v ∉ sources := by
      rw [← h.keys, SortedMap.mem_keys_iff_isSome, hv]
      exact Bool.false_ne_true
    rw [if_neg hnone]
  | some reached =>
    have hsource : v ∈ sources := by
      rw [← h.keys, SortedMap.mem_keys_iff_isSome, hv]
      rfl
    have hmet : s.metFrom v = reached := by rw [metFrom, hv, Option.getD_some]
    rw [if_pos hsource]
    refine congrArg some (SortedSet.ext fun u => ?_)
    rw [Digraph.mem_reachableFrom, ← hmet]
    refine ⟨h.reached v u, fun hpath => ?_⟩
    induction hpath with
    | refl => exact h.self v hsource
    | tail _ hedge ih => exact hclosed v _ ih _ hedge

end PairSearch

/-! ## Unit pairs -/

namespace Grammar

variable {g : Grammar} {v u : Name}

/-- What unit steps lead to is at the end of a chain of them. The chain is written with its first
and its last variable, so the chain of no steps at all is a single variable. -/
lemma unitSteps_iff_chain :
    ReflTransGen g.UnitStep v u ↔ ∃ chain : List Name, chain.head? = some v ∧
      chain.getLast? = some u ∧ chain.IsChain fun a b => [.nonterminal b] ∈ g.alternatives a := by
  constructor
  · intro hpath
    obtain ⟨chain, hchain, hlast⟩ := List.exists_isChain_cons_of_relationReflTransGen hpath
    exact ⟨v :: chain, rfl, by rw [List.getLast?_eq_some_getLast (List.cons_ne_nil _ _), hlast],
      hchain⟩
  · rintro ⟨chain, hhead, hlast, hchain⟩
    obtain ⟨rest, rfl⟩ := List.head?_eq_some_iff.1 hhead
    refine List.relationReflTransGen_of_exists_isChain_cons rest hchain (Option.some.inj ?_)
    rw [← hlast, List.getLast?_eq_some_getLast (List.cons_ne_nil _ _)]

/-- **Unit pairs are exact.** There is an entry for each variable and for nothing else, and a name
is paired with a variable exactly when some chain of alternatives which are single variables leads
to it. A search over pairs, in whichever order they are taken, ends after a bounded number of
rounds, and when it cannot go on it has found the unit pairs.

**Proof sketch.** An entry holds what can be reached along unit edges, and each path is a chain.
For the search, `PairSearch.Sound` holds in the beginning and is kept by every round, the rounds
are bounded by `PairSearch.work`, and `PairSearch.Sound.met_eq` describes the end. -/
theorem unitPairs_exact (g : Grammar) :
    g.unitPairs.keys = g.nonterminals ∧
    (∀ v reached, g.unitPairs.get? v = some reached → ∀ u, u ∈ reached ↔
      ∃ chain : List Name, chain.head? = some v ∧ chain.getLast? = some u ∧
        chain.IsChain fun a b => [.nonterminal b] ∈ g.alternatives a) ∧
    ∀ states, (PairSearch.start g.nonterminals :: states).IsChain (PairSearch.Step g.unitEdges) →
      states.length ≤ g.nonterminals.size * (2 * g.unitEdges.targets.length + 1) ∧
      ∀ s ∈ PairSearch.start g.nonterminals :: states,
        (∀ t, ¬ PairSearch.Step g.unitEdges s t) → s.met = g.unitPairs := by
  refine ⟨SortedMap.keys_ofKeys, fun v reached hreached u => ?_, fun states hstates => ?_⟩
  · rw [(mem_unitPairs.1 hreached).2, mem_reachableFrom_unitEdges, unitSteps_iff_chain]
  · obtain ⟨hlength, hsound⟩ := PairSearch.sound_start.length_le hstates
    exact ⟨hlength.trans PairSearch.work_start_le, fun s hs hend => (hsound s hs).met_eq hend⟩

/-- Unit pairs of variables in a circle: `A` is paired with `B`, and with itself also by way of
`B`. -/
theorem unitPairs_exact_circling :
    ∃ reached, circling.toGrammar.unitPairs.get? "A" = some reached ∧ "B" ∈ reached ∧
      ("A" ∈ reached ↔ ∃ chain : List Name, chain.head? = some "A" ∧ chain.getLast? = some "A" ∧
        chain.IsChain fun a b => [.nonterminal b] ∈ circling.toGrammar.alternatives a) := by
  have hreached : circling.toGrammar.unitPairs.get? "A" =
      some (circling.toGrammar.unitEdges.reachableFrom "A") := mem_unitPairs.2 ⟨by decide, rfl⟩
  have hexact := (unitPairs_exact circling.toGrammar).2.1 "A" _ hreached
  have hstep : [.nonterminal "B"] ∈ circling.toGrammar.alternatives "A" := by decide
  exact ⟨_, hreached, (hexact "B").2 ⟨["A", "B"], rfl, rfl, .cons_cons hstep (.singleton _)⟩,
    hexact "A"⟩

end Grammar

end ChomskyForm
