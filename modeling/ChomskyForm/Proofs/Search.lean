import Mathlib.Logic.Relation
import Mathlib.Tactic.Common
import ChomskyForm.Analysis.Digraph

set_option autoImplicit false
set_option relaxedAutoImplicit false

/-!
# The search finds what can be reached

The breadth-first search of a finite digraph finds exactly the names that the edges lead to, in
any number of steps.

## Main results

* `ChomskyForm.Digraph.explore_induction`: the search does not leave a set that the edges do not
  leave.
* `ChomskyForm.Digraph.explore_closed`: no edge leaves the result of a search.
* `ChomskyForm.Digraph.mem_reachableFrom`: reachability is the reflexive and transitive closure of
  the edges.

## Implementation notes

The invariant of the search is that all successors of a met name have been met, unless the name
is still in the queue.
-/

namespace ChomskyForm

namespace Digraph

open Relation

variable {d : Digraph}

/-- The search forgets no name that it has met, in whichever state it is taken up. -/
lemma mem_explore_of_mem (met : SortedSet Name) (queue : List Name) {u : Name} (h : u ∈ met) :
    u ∈ d.explore met queue := by
  fun_induction explore d met queue with
  | case1 => exact h
  | case2 met v queue new ih => exact ih (SortedSet.mem_foldr_insert.2 (.inr h))

/-- **No escape.** If the names met and those in the queue have a property that every edge hands
on, then all names found have it. This is the induction principle of the search: the property is
that of being reachable, below. -/
lemma explore_induction {p : Name → Prop} (edge : ∀ v u, p v → u ∈ d.next v → p u)
    (met : SortedSet Name) (queue : List Name) (hmet : ∀ v ∈ met, p v) (hqueue : ∀ v ∈ queue, p v)
    {u : Name} (h : u ∈ d.explore met queue) : p u := by
  fun_induction explore d met queue with
  | case1 => exact hmet u h
  | case2 met v queue new ih =>
    have hnew : ∀ w ∈ new, p w := fun w hw =>
      edge v w (hqueue v List.mem_cons_self) (List.mem_filter.1 hw).1
    refine ih (fun w hw => ?_) (fun w hw => ?_) h
    · rcases SortedSet.mem_foldr_insert.1 hw with hw | hw
      · exact hnew w hw
      · exact hmet w hw
    · rcases List.mem_append.1 hw with hw | hw
      · exact hqueue w (List.mem_cons_of_mem _ hw)
      · exact hnew w hw

/-- **No edge leaves the result**, given that the successors of each met name have been met or the
name is in the queue.

**Proof sketch.** A round keeps this invariant: the name taken from the queue has its successors
met now, the names met in this round are in the queue, and a name whose successors had been met
keeps them. When the queue is empty the invariant is the statement. -/
lemma explore_closed (met : SortedSet Name) (queue : List Name)
    (h : ∀ v ∈ met, v ∈ queue ∨ ∀ u ∈ d.next v, u ∈ met) {v u : Name}
    (hv : v ∈ d.explore met queue) (hu : u ∈ d.next v) : u ∈ d.explore met queue := by
  fun_induction explore d met queue with
  | case1 met =>
    rcases h v hv with hq | hall
    · cases hq
    · exact hall u hu
  | case2 met x queue new ih =>
    refine ih (fun w hw => ?_) hv
    have hmet : ∀ y ∈ met, y ∈ new.foldr SortedSet.insert met :=
      fun y hy => SortedSet.mem_foldr_insert.2 (.inr hy)
    rcases SortedSet.mem_foldr_insert.1 hw with hw | hw
    · exact .inl (List.mem_append_right _ hw)
    · rcases h w hw with hq | hall
      · rcases List.mem_cons.1 hq with rfl | hq
        · refine .inr fun y hy => SortedSet.mem_foldr_insert.2 ?_
          by_cases hm : y ∈ met
          · exact .inr hm
          · exact .inl (List.mem_filter.2 ⟨hy, decide_eq_true hm⟩)
        · exact .inl (List.mem_append_left _ hq)
      · exact .inr fun y hy => hmet y (hall y hy)

/-- **Reachability.** The search from `v` finds exactly the names to which some path of edges
leads.

**Proof sketch.** What is found is reachable, since reachability is handed on along edges.
Conversely `v` is found, and no edge leaves what is found, so by induction on the path its end is
found as well. -/
theorem mem_reachableFrom {v u : Name} :
    u ∈ d.reachableFrom v ↔ ReflTransGen (fun a b => b ∈ d.next a) v u := by
  unfold reachableFrom
  constructor
  · intro h
    refine explore_induction (p := ReflTransGen (fun a b => b ∈ d.next a) v)
      (fun a b ha hb => ha.tail hb) _ _ ?_ ?_ h
    · intro w hw
      rw [SortedSet.mem_singleton.1 hw]
    · intro w hw
      rw [List.mem_singleton.1 hw]
  · intro h
    induction h with
    | refl => exact mem_explore_of_mem _ _ (SortedSet.mem_singleton.2 rfl)
    | tail _ hb ih =>
      refine explore_closed _ _ (fun w hw => .inl ?_) ih hb
      rw [SortedSet.mem_singleton.1 hw]
      exact List.mem_singleton_self v

end Digraph

end ChomskyForm
