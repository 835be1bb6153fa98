import ChomskyForm.Sorted.Map
import ChomskyForm.Symbol

set_option autoImplicit false
set_option relaxedAutoImplicit false

/-!
# Reachability in a finite digraph of names

A finite digraph lists the successors of some names. The names that can be reached from a given
one are found by a breadth-first search, which takes one name at a time from a queue and appends
those of its successors that it has not met before.

## Main definitions

* `ChomskyForm.Digraph`: digraphs, given by their successor sets.
* `ChomskyForm.Digraph.explore`: the search.
* `ChomskyForm.Digraph.reachableFrom`: the names that can be reached from one name.

## Implementation notes

The search ends because each round either shortens the queue or meets a name that was not met
before, and all names met after the first are targets of edges, of which there are finitely
many. The order of the queue has no effect on the result.
-/

namespace ChomskyForm

/-- **Finite digraphs**, given by the successors of each name. Successors may be names without an
entry of their own. -/
structure Digraph where
  /-- The successors, by source. -/
  successors : SortedMap Name (SortedSet Name)

namespace Digraph

/-- The successors of a name, from the least to the greatest; there are none for a name without an
entry. -/
def next (d : Digraph) (v : Name) : List Name := ((d.successors.get? v).getD ∅).toList

/-- All names that some edge leads to, once for each edge. Apart from the first name, a search can
meet no others. -/
def targets (d : Digraph) : List Name := d.successors.values.flatMap SortedSet.toList

/-- A successor is the target of an edge. It is why a search can only ever meet finitely many
names. -/
theorem mem_targets_of_mem_next {d : Digraph} {u v : Name} (h : u ∈ d.next v) : u ∈ d.targets := by
  unfold next at h
  cases hv : d.successors.get? v with
  | none => simp [hv, EmptyCollection.emptyCollection, SortedSet.empty] at h
  | some s =>
    simp only [hv, Option.getD_some] at h
    refine List.mem_flatMap.2 ⟨s, List.mem_map.2 ⟨(v, s), SortedMap.mem_toList.2 hv, rfl⟩, h⟩

/-- The number of edges whose target is not in a set, the first part of the measure of the
search. -/
def unmet (d : Digraph) (met : SortedSet Name) : Nat := (d.targets.filter (· ∉ met)).length

/-- Meeting a successor for the first time leaves fewer targets to be met. -/
theorem unmet_lt_unmet {d : Digraph} {met met' : SortedSet Name} (h : ∀ w ∈ met, w ∈ met')
    {u v : Name} (hv : u ∈ d.next v) (hu : u ∉ met) (hu' : u ∈ met') :
    d.unmet met' < d.unmet met := by
  refine length_filter_lt_length_filter (fun w _ hw => ?_) (mem_targets_of_mem_next hv)
    (decide_eq_true hu) (decide_eq_false fun hn => hn hu')
  exact decide_eq_true fun hm => of_decide_eq_true hw (h w hm)

/-- **Search.** Extends the set of names met by all that can be reached from the queue, given that
the queue holds all met names whose successors have not been looked at. A round takes one name from
the queue and appends those of its successors that are met for the first time. -/
def explore (d : Digraph) (met : SortedSet Name) : List Name → SortedSet Name
  | [] => met
  | v :: queue =>
    let new := (d.next v).filter (· ∉ met)
    d.explore (new.foldr SortedSet.insert met) (queue ++ new)
termination_by queue => (d.unmet met, queue.length)
decreasing_by
  by_cases h : ∃ u ∈ d.next v, u ∉ met
  · obtain ⟨u, hv, hu⟩ := h
    refine Prod.Lex.left _ _ (unmet_lt_unmet (fun w hw => ?_) hv hu ?_)
    · exact SortedSet.mem_foldr_insert.2 (.inr hw)
    · exact SortedSet.mem_foldr_insert.2 (.inl (List.mem_filter.2 ⟨hv, decide_eq_true hu⟩))
  · have hnew : (d.next v).filter (· ∉ met) = [] :=
      List.filter_eq_nil_iff.2 fun u hu hm => h ⟨u, hu, of_decide_eq_true hm⟩
    simp only [hnew, List.foldr_nil, List.append_nil, List.length_cons]
    exact Prod.Lex.right _ (Nat.lt_succ_self _)

/-- **Reachability.** The names that can be reached from `v`, with `v` itself. The search begins
with `v` as the only name met and the only one in the queue. -/
def reachableFrom (d : Digraph) (v : Name) : SortedSet Name :=
  d.explore (SortedSet.singleton v) [v]

end Digraph

end ChomskyForm
