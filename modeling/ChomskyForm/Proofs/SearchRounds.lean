import Mathlib.Data.List.Nodup
import Mathlib.Data.List.Perm.Subperm
import Mathlib.Data.List.Permutation
import Mathlib.Logic.Function.Iterate
import ChomskyForm.Proofs.RoundTrip
import ChomskyForm.Proofs.UsefulParts

set_option autoImplicit false
set_option relaxedAutoImplicit false

/-!
# The rounds of a search

The breadth-first search of a finite digraph, taken apart into its rounds. A round takes the name
that has waited longest, and the successors that are met for the first time wait from then on. No
name is taken twice, so the search ends after exactly as many rounds as there are names to be found.
For the grammar this is the search for the variables that occur in the forms derived from the start
symbol.

## Main definitions

* `ChomskyForm.Exploration`: the state of a search between two rounds.
* `ChomskyForm.Digraph.round`: one round.
* `ChomskyForm.Digraph.Traced`: the invariant of the rounds.
* `ChomskyForm.Grammar.searchAfter`: the search for variables after some rounds.

## Main results

* `ChomskyForm.Digraph.Traced.round`: every round keeps the invariant.
* `ChomskyForm.Digraph.queue_eq_nil_iff`: when the search ends.
* `ChomskyForm.Grammar.Attainable.reachable_exact`: what the search for variables finds, and when it
  ends.
-/

namespace ChomskyForm

/-- **The state of a search** between two rounds. The search itself is a recursive function of
these two fields; as a state it can be looked at after each round. -/
structure Exploration where
  /-- The names met so far. -/
  met : SortedSet Name
  /-- The names met whose successors have not been looked at, the next one first. -/
  queue : List Name

namespace Digraph

variable {d : Digraph} {s : Exploration} {v : Name} {n : Nat}

/-- **The beginning of a search**: only `v` has been met, and it waits. -/
def beginning (v : Name) : Exploration := ⟨SortedSet.singleton v, [v]⟩

/-- **One round.** The name that has waited longest is taken, and its successors that have not been
met wait behind all others. When no name waits, nothing happens any more. -/
def round (d : Digraph) (s : Exploration) : Exploration :=
  match s.queue with
  | [] => s
  | v :: queue =>
    let new := (d.next v).filter (· ∉ s.met)
    ⟨new.foldr SortedSet.insert s.met, queue ++ new⟩

/-- **The search after `n` rounds**, from its beginning with a single name. -/
def roundsFrom (d : Digraph) (v : Name) (n : Nat) : Exploration := d.round^[n] (beginning v)

/-- One more round is made at the end. -/
lemma roundsFrom_succ : d.roundsFrom v (n + 1) = d.round (d.roundsFrom v n) :=
  Function.iterate_succ_apply' _ _ _

/-- **A round makes no difference** to what the search is going to find: the recursion of the
search takes the same step. -/
lemma explore_round (d : Digraph) (s : Exploration) :
    d.explore (d.round s).met (d.round s).queue = d.explore s.met s.queue := by
  obtain ⟨met, queue⟩ := s
  cases queue with
  | nil => rfl
  | cons v queue =>
    rw [explore]
    rfl

/-! ## The invariant -/

/-- **The invariant of the rounds**: the names met are those taken so far, in this order, and those
that wait, each of them once. -/
structure Traced (d : Digraph) (v : Name) (taken : List Name) (s : Exploration) : Prop where
  /-- No name is taken twice, and none that has been taken waits again. -/
  nodup : (taken ++ s.queue).Nodup
  /-- What has been met has been taken or waits. -/
  mem_met : ∀ u, u ∈ s.met ↔ u ∈ taken ++ s.queue
  /-- The search is going to find what can be reached. -/
  finds : d.explore s.met s.queue = d.reachableFrom v

/-- In the beginning no name has been taken, and the only name that has been met waits. -/
lemma traced_beginning : Traced d v [] (beginning v) where
  nodup := List.nodup_singleton v
  mem_met u := by simp [beginning]
  finds := rfl

/-- **Every round keeps the invariant.** The name that is taken stops waiting, and what is met for
the first time waits behind all others. -/
lemma Traced.round {taken queue : List Name} {u : Name} (h : Traced d v taken s)
    (hqueue : s.queue = u :: queue) : Traced d v (taken ++ [u]) (d.round s) := by
  set new := (d.next u).filter (· ∉ s.met) with hnew
  have hround : d.round s = ⟨new.foldr SortedSet.insert s.met, queue ++ new⟩ := by
    rw [Digraph.round, hqueue]
  have hsplit : taken ++ [u] ++ (queue ++ new) = taken ++ s.queue ++ new := by simp [hqueue]
  refine ⟨?_, fun x => ?_, (explore_round d s).trans h.finds⟩
  · have hnodup : new.Nodup := (SortedSet.nodup_toList _).filter _
    rw [hround, hsplit]
    refine h.nodup.append hnodup fun x hx hn => ?_
    exact of_decide_eq_true (List.mem_filter.1 hn).2 ((h.mem_met x).2 hx)
  · rw [hround, hsplit, SortedSet.mem_foldr_insert, List.mem_append, ← h.mem_met, or_comm]

/-- **What is known after `n` rounds**: as many names have been taken, unless the search is over.
By induction on the rounds; a round without a name that waits takes none and changes nothing. -/
lemma exists_traced (d : Digraph) (v : Name) (n : Nat) :
    ∃ taken, Traced d v taken (d.roundsFrom v n) ∧ taken.length ≤ n ∧
      ((d.roundsFrom v n).queue ≠ [] → taken.length = n) := by
  induction n with
  | zero => exact ⟨[], traced_beginning, Nat.le_refl 0, fun _ => rfl⟩
  | succ n ih =>
    obtain ⟨taken, htraced, hle, hlength⟩ := ih
    rw [roundsFrom_succ]
    cases hqueue : (d.roundsFrom v n).queue with
    | nil =>
      have hround : d.round (d.roundsFrom v n) = d.roundsFrom v n := by rw [round, hqueue]
      rw [hround]
      exact ⟨taken, htraced, Nat.le_succ_of_le hle, fun hne => absurd hqueue hne⟩
    | cons u queue =>
      have htaken : (taken ++ [u]).length = n + 1 := by
        rw [List.length_append, List.length_singleton, hlength (by simp [hqueue])]
      exact ⟨taken ++ [u], htraced.round hqueue, htaken.le, fun _ => htaken⟩

/-! ## The end of the search -/

/-- What has been met can be reached, since the search never forgets it. -/
lemma Traced.mem_reachableFrom {taken : List Name} {u : Name} (h : Traced d v taken s)
    (hu : u ∈ s.met) : u ∈ d.reachableFrom v :=
  h.finds ▸ mem_explore_of_mem s.met s.queue hu

/-- When no name waits, all that can be reached has been met: nothing more is going to be found. -/
lemma Traced.met_eq {taken : List Name} (h : Traced d v taken s) (hqueue : s.queue = []) :
    s.met = d.reachableFrom v := by
  have hfinds := h.finds
  rwa [hqueue, explore] at hfinds

/-- **The search ends** after as many rounds as there are names to be reached, and not before.

**Proof sketch.** The names taken and those that wait are different names that can be reached.
After `n` rounds with a name that waits, these are more than `n`. When no name waits, they are all
that can be reached, and at most `n` have been taken. -/
theorem queue_eq_nil_iff : (d.roundsFrom v n).queue = [] ↔ (d.reachableFrom v).size ≤ n := by
  obtain ⟨taken, htraced, hle, hlength⟩ := exists_traced d v n
  set s := d.roundsFrom v n
  constructor
  · intro hqueue
    have hsize : s.met.size = (taken ++ s.queue).length :=
      SortedSet.size_eq_length htraced.nodup htraced.mem_met
    rw [← htraced.met_eq hqueue, hsize, hqueue, List.append_nil]
    exact hle
  · intro hsize
    by_contra hqueue
    have hsub : taken ++ s.queue ⊆ (d.reachableFrom v).toList := fun u hu =>
      htraced.mem_reachableFrom ((htraced.mem_met u).2 hu)
    have hlt := (List.subperm_of_subset htraced.nodup hsub).length_le
    have hpos : 0 < s.queue.length := List.length_pos_of_ne_nil hqueue
    rw [List.length_append, hlength hqueue] at hlt
    rw [SortedSet.size] at hsize
    omega

/-- When the search has ended, it has found what can be reached, and further rounds add nothing to
it. -/
theorem met_roundsFrom (hn : (d.reachableFrom v).size ≤ n) :
    (d.roundsFrom v n).met = d.reachableFrom v := by
  obtain ⟨taken, htraced, -⟩ := exists_traced d v n
  exact htraced.met_eq (queue_eq_nil_iff.2 hn)

end Digraph

/-! ## Reachable variables -/

namespace Grammar

variable {g : Grammar}

/-- **The search for variables** after `n` rounds, along the dependencies of the grammar. -/
def searchAfter (g : Grammar) (n : Nat) : Exploration := g.dependencies.roundsFrom g.start n

/-- **Reachability is exact.** In an attainable grammar the reachable variables are those that
occur in some form derived from the start symbol, whether or not a word can be derived from that
form, and the start symbol is one of them. The search ends after exactly as many rounds as there
are reachable variables, and it has met these and no others then.

**Proof sketch.** A path of dependencies is a derivation in which one occurrence is replaced after
the other, and whatever occurs in a derived form is at the end of such a path. The rounds are
counted by `Digraph.queue_eq_nil_iff`. -/
theorem Attainable.reachable_exact (h : g.Attainable) :
    (∀ v, v ∈ g.reachable ↔ v ∈ g.nonterminals ∧
      ∃ form, g.Derives [.nonterminal g.start] form ∧ .nonterminal v ∈ form) ∧
    g.start ∈ g.reachable ∧
    (∀ n, (g.searchAfter n).queue = [] ↔ g.reachable.size ≤ n) ∧
    ∀ n, (g.searchAfter n).queue = [] → (g.searchAfter n).met = g.reachable := by
  refine ⟨fun v => ⟨fun hv => ?_, ?_⟩, ?_, fun n => Digraph.queue_eq_nil_iff, fun n hn => ?_⟩
  · obtain ⟨before, after, hder⟩ := exists_derives_of_reachable hv
    exact ⟨mem_nonterminals_of_reachable h.wellFormed hv, _, hder, by simp⟩
  · rintro ⟨-, form, hder, hv⟩
    exact hder.mem_reachable hv
  · exact mem_reachable.2 .refl
  · exact Digraph.met_roundsFrom (Digraph.queue_eq_nil_iff.1 hn)

/-- The reachable variables of two grammars. In that of severed variables the search takes three
rounds: `B` is reachable, although no word can be derived from a form in which it occurs, and `C` is
not. In that of endless words the start symbol stays reachable when it has lost its entry, since it
is not productive. -/
theorem reachable_exact_severed_endless :
    severed.toGrammar.Attainable ∧
      (∃ form, severed.toGrammar.Derives [.nonterminal "S"] form ∧ .nonterminal "B" ∈ form) ∧
      (¬ ∃ form, severed.toGrammar.Derives [.nonterminal "S"] form ∧ .nonterminal "C" ∈ form) ∧
      (severed.toGrammar.searchAfter 2).queue ≠ [] ∧ (severed.toGrammar.searchAfter 3).queue = [] ∧
      (endless.toGrammar.run [.pruneUnproductive]).Attainable ∧
      "S" ∉ (endless.toGrammar.run [.pruneUnproductive]).productions.keys ∧
      "S" ∈ (endless.toGrammar.run [.pruneUnproductive]).reachable := by
  have hreachable : severed.toGrammar.reachable = SortedSet.ofList ["A", "B", "S"] := by cbv
  have hendless : (endless.toGrammar.run [.pruneUnproductive]).Attainable :=
    (attainable_of_ofDescription ofDescription_endless).run [.pruneUnproductive]
  have hkeys : "S" ∉ (endless.toGrammar.run [.pruneUnproductive]).productions.keys :=
    of_decide_eq_false (by cbv)
  obtain ⟨hexact, -, hends, -⟩ := Attainable.reachable_exact attainable_severed
  rw [hreachable] at hexact hends
  refine ⟨attainable_severed, ((hexact "B").1 (by decide)).2, fun hform => ?_, fun hqueue => ?_,
    (hends 3).2 (by decide), hendless, hkeys, (Attainable.reachable_exact hendless).2.1⟩
  · exact absurd ((hexact "C").2 ⟨by decide, hform⟩) (by decide)
  · exact absurd ((hends 2).1 hqueue) (by decide)

end Grammar

end ChomskyForm
