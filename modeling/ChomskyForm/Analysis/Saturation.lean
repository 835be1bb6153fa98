import ChomskyForm.Sorted.Set
import ChomskyForm.Symbol

set_option autoImplicit false
set_option relaxedAutoImplicit false

/-!
# Saturation of clauses by counting

A clause says that its head belongs to a set of names once all names of its body do. The least
set that obeys a list of clauses is found by counting: each clause keeps the number of
occurrences in its body that are still pending, and its head is found when that number becomes
zero. Found names wait in a queue. To settle a name means to take it from the queue and to count
down, one by one, every occurrence of it; so each occurrence is looked at once and no body is
searched again.

## Main definitions

* `ChomskyForm.Clause`: clauses.
* `ChomskyForm.Saturation`: the state of the count, and `Saturation.step?`, one step of it.
* `ChomskyForm.saturate`: the least set that obeys the clauses.

## Implementation notes

A step either counts one occurrence on the agenda or, when the agenda is empty, settles the next
name of the queue. Steps end because a step finds a new head, or shortens the queue, or leaves
both alone and shortens the agenda.
-/

namespace ChomskyForm

/-- **Clauses.** The head belongs to the set once every name of the body does. A name that
occurs several times in the body counts several times. -/
structure Clause where
  /-- The name that the clause adds. -/
  head : Name
  /-- The names that it waits for. -/
  body : List Name
deriving DecidableEq, Repr

/-- **The state of a saturation.** Clauses are identified by their positions. -/
structure Saturation where
  /-- For each clause, the occurrences in its body that have not been counted. -/
  pending : Array Nat
  /-- The names taken from the queue, in that order. -/
  settled : List Name
  /-- The names found and not yet taken, in the order in which they were found. -/
  queue : List Name
  /-- The clauses with an occurrence of the name settled last that is still to be counted, once
  for each such occurrence. -/
  agenda : List Nat
deriving Repr

namespace Saturation

/-- **The names found so far**, in the order in which they were found. -/
def found (s : Saturation) : List Name := s.settled ++ s.queue

/-- **Finding a name.** It joins the queue unless it was found before. -/
def find (s : Saturation) (v : Name) : Saturation :=
  if v ∈ s.found then s else { s with queue := s.queue ++ [v] }

/-- **The occurrences of a name** in the bodies, as positions of clauses. A clause whose body holds
the name three times is listed three times, so that it is counted down three times. -/
def occurrences (clauses : List Clause) (v : Name) : List Nat :=
  clauses.zipIdx.flatMap fun (c, i) => List.replicate (c.body.count v) i

/-- **The beginning.** Nothing is counted, and the heads of clauses with an empty body are found.
They wait for nothing, so no count would ever reach zero for them. -/
def start (clauses : List Clause) : Saturation :=
  let state : Saturation := ⟨(clauses.map (·.body.length)).toArray, [], [], []⟩
  ((clauses.filter (·.body.isEmpty)).map (·.head)).foldl find state

/-- **Counting.** One occurrence in the body of clause `i` is counted; if it was the last one, the
head is found. -/
def countDown (clauses : List Clause) (s : Saturation) (i : Nat) : Saturation :=
  let s' := { s with pending := s.pending.modify i (· - 1) }
  match clauses[i]?, s'.pending[i]? with
  | some c, some 0 => s'.find c.head
  | _, _ => s'

/-- **Settling.** The name `v` leaves the queue, of which `queue` remains, and its occurrences
make up the agenda. -/
def settle (clauses : List Clause) (s : Saturation) (v : Name) (queue : List Name) : Saturation :=
  { s with settled := s.settled ++ [v], queue := queue, agenda := occurrences clauses v }

/-- **One step**: count the next occurrence of the agenda, or settle the next name of the
queue. There is none when both are empty. -/
def step? (clauses : List Clause) (s : Saturation) : Option Saturation :=
  match s.agenda, s.queue with
  | i :: agenda, _ => some (countDown clauses { s with agenda := agenda } i)
  | [], v :: queue => some (settle clauses s v queue)
  | [], [] => none

/-! ## Termination -/

/-- The number of clauses whose head has not been found, the first part of the measure of a run. -/
def missing (clauses : List Clause) (s : Saturation) : Nat :=
  (clauses.filter (·.head ∉ s.found)).length

/-- The order in which the states of a run go down: heads to be found first, then the queue, then
the agenda. Settling a name makes the agenda longer, but the queue shorter. -/
def Smaller (clauses : List Clause) (t s : Saturation) : Prop :=
  Prod.Lex (· < ·) (Prod.Lex (· < ·) (· < ·))
    (t.missing clauses, t.queue.length, t.agenda.length)
    (s.missing clauses, s.queue.length, s.agenda.length)

/-- Finding a name appends it to the names found, unless it is there already. -/
theorem found_find (s : Saturation) (v : Name) :
    (s.find v).found = if v ∈ s.found then s.found else s.found ++ [v] := by
  unfold find
  split <;> simp [found]

/-- To find a name once more changes nothing. -/
theorem find_of_mem {s : Saturation} {v : Name} (h : v ∈ s.found) : s.find v = s := if_pos h

/-- **What counting does.** It leaves the names found as they are, or finds the head of a clause
that was not found before; the agenda is left alone in either case.

**Proof sketch.** Only a count that becomes zero finds anything, and what it finds is the head of
the clause that was counted. If that head is among the names found, finding it once more changes
nothing; otherwise it is a new one. -/
theorem countDown_cases (clauses : List Clause) (s : Saturation) (i : Nat) :
    (countDown clauses s i).agenda = s.agenda ∧
      ((countDown clauses s i).queue = s.queue ∧ (countDown clauses s i).found = s.found ∨
        ∃ c ∈ clauses, c.head ∉ s.found ∧ (countDown clauses s i).found = s.found ++ [c.head]) := by
  unfold countDown
  dsimp only
  split
  · next c hc _ =>
    refine ⟨by simp only [find]; split <;> rfl, ?_⟩
    by_cases hv : c.head ∈ s.found
    · have hv' : c.head ∈ found { s with pending := s.pending.modify i (· - 1) } := hv
      rw [find_of_mem hv']
      exact .inl ⟨rfl, rfl⟩
    · refine .inr ⟨c, List.mem_of_getElem? hc, hv, ?_⟩
      rw [found_find]
      exact if_neg hv
  · exact ⟨rfl, .inl ⟨rfl, rfl⟩⟩

/-- **Each step makes the state smaller**, so a run ends.

**Proof sketch.** Counting shortens the agenda, and if it finds a head, fewer clauses are left
whose head is missing (`countDown_cases`). Settling shortens the queue and finds nothing. -/
theorem smaller_of_step? {clauses : List Clause} {s t : Saturation}
    (h : step? clauses s = some t) : Smaller clauses t s := by
  unfold step? at h
  unfold Smaller
  split at h
  · next i agenda hagenda =>
    obtain rfl := Option.some.inj h
    obtain ⟨hrest, hcases⟩ := countDown_cases clauses { s with agenda := agenda } i
    rcases hcases with ⟨hqueue, hfound⟩ | ⟨c, hc, hnew, hfound⟩
    · simp only [missing, hfound, hqueue, hrest, hagenda]
      exact Prod.Lex.right _ (Prod.Lex.right _ (Nat.lt_succ_self _))
    · refine Prod.Lex.left _ _ (length_filter_lt_length_filter (fun d _ hd => ?_) hc
        (decide_eq_true hnew) (decide_eq_false fun hn => hn ?_))
      · refine decide_eq_true fun hm => of_decide_eq_true hd ?_
        rw [hfound]
        exact List.mem_append_left _ hm
      · rw [hfound]
        exact List.mem_append_right _ List.mem_cons_self
  · next v queue _ hqueue =>
    obtain rfl := Option.some.inj h
    have hfound : (settle clauses s v queue).found = s.found := by
      simp [settle, found, hqueue]
    simp only [missing, hfound, hqueue]
    exact Prod.Lex.right _ (Prod.Lex.left _ _ (Nat.lt_succ_self _))
  · cases h

/-- **The run** from a state: steps until there is none. The recursion is on the state, with the
measure of `Smaller`; no number of steps has to be given in advance. -/
def run (clauses : List Clause) (s : Saturation) : Saturation :=
  match _h : step? clauses s with
  | some t => run clauses t
  | none => s
termination_by (s.missing clauses, s.queue.length, s.agenda.length)
decreasing_by exact smaller_of_step? _h

/-- A run stops where no step is left: both the queue and the agenda are empty there. -/
theorem step?_run (clauses : List Clause) (s : Saturation) :
    step? clauses (run clauses s) = none := by
  fun_induction run clauses s with
  | case1 _ _ _ ih => exact ih
  | case2 _ h => exact h

end Saturation

/-- **The least set that obeys the clauses**: the names that are found in the run from the
beginning. -/
def saturate (clauses : List Clause) : SortedSet Name :=
  SortedSet.ofList (Saturation.run clauses (Saturation.start clauses)).found

end ChomskyForm
