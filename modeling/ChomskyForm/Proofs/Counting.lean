import Mathlib.Tactic.Common
import ChomskyForm.Analysis.Saturation

set_option autoImplicit false
set_option relaxedAutoImplicit false

/-!
# Counting finds the least set

What the clauses entail is the least set that contains the head of a clause whenever it contains
the body. Saturation finds exactly this set. The reason is what the counts stand for: at every
moment, the count of a clause is the number of occurrences in its body whose name has not been
settled, together with those that still wait on the agenda.

## Main definitions

* `ChomskyForm.Entails`: the names that the clauses entail.
* `ChomskyForm.Saturation.Counted`: the invariant of a saturation.

## Main results

* `ChomskyForm.Saturation.Counted.step`: every step keeps the invariant.
* `ChomskyForm.mem_saturate`: a saturation finds exactly what the clauses entail.
-/

namespace ChomskyForm

/-- **Entailment.** A name is entailed when it is the head of a clause whose body is entailed. This
is the least set that obeys the clauses, given without any order in which it is found. -/
inductive Entails (clauses : List Clause) : Name → Prop where
  /-- A clause whose body is entailed entails its head. -/
  | head {c : Clause} (hc : c ∈ clauses) (hbody : ∀ v ∈ c.body, Entails clauses v) :
      Entails clauses c.head

namespace Saturation

variable {clauses : List Clause} {s : Saturation}

/-! ## Finding names -/

/-- Finding a name changes no count. -/
@[simp] lemma pending_find (v : Name) : (s.find v).pending = s.pending := by
  unfold find
  split <;> rfl

/-- Finding a name settles nothing. -/
@[simp] lemma settled_find (v : Name) : (s.find v).settled = s.settled := by
  unfold find
  split <;> rfl

/-- Finding a name leaves the agenda alone. -/
@[simp] lemma agenda_find (v : Name) : (s.find v).agenda = s.agenda := by
  unfold find
  split <;> rfl

/-- After a name has been found, the names found are it and those found before. -/
@[simp] lemma mem_found_find {u v : Name} : u ∈ (s.find v).found ↔ u ∈ s.found ∨ u = v := by
  rw [found_find]
  split
  · next h =>
    constructor
    · exact .inl
    · rintro (hu | rfl)
      · exact hu
      · exact h
  · simp

/-- Finding a name lists it once: a name that is there already is not appended again. -/
lemma nodup_found_find (h : s.found.Nodup) (v : Name) : (s.find v).found.Nodup := by
  rw [found_find]
  split
  · exact h
  · next hv =>
    rw [List.nodup_append]
    refine ⟨h, by simp, fun a ha b hb hab => hv ?_⟩
    rw [List.mem_singleton] at hb
    rwa [← hb, ← hab]

/-! ## Occurrences -/

/-- The occurrences of a name, when the positions of the clauses begin at `n`: clause `n + i` is
listed as often as the name occurs in its body.

**Proof sketch.** Induction on the clauses, with any first position. The clause at the front is
listed at the front only, because all later ones have greater positions; and it is not listed among
the later ones. -/
lemma count_flatMap_zipIdx (v : Name) {i : Nat} {c : Clause} (n : Nat) (h : clauses[i]? = some c) :
    ((clauses.zipIdx n).flatMap fun (c, i) => List.replicate (c.body.count v) i).count (n + i) =
      c.body.count v := by
  induction clauses generalizing i n with
  | nil => simp at h
  | cons d clauses ih =>
    rw [List.zipIdx_cons, List.flatMap_cons, List.count_append]
    cases i with
    | zero =>
      -- the later clauses have greater positions
      have hlater : ((clauses.zipIdx (n + 1)).flatMap fun (c, i) =>
          List.replicate (c.body.count v) i).count n = 0 := by
        refine List.count_eq_zero.2 fun hm => ?_
        obtain ⟨⟨e, k⟩, he, hk⟩ := List.mem_flatMap.1 hm
        have hle := List.le_snd_of_mem_zipIdx he
        have := List.eq_of_mem_replicate hk
        simp only at hle
        omega
      simp only [List.getElem?_cons_zero, Option.some.injEq] at h
      subst h
      simp [hlater]
    | succ i =>
      have hi := ih (n + 1) (by simpa using h)
      rw [show n + 1 + i = n + (i + 1) by omega] at hi
      rw [hi, List.count_eq_zero.2]
      · omega
      · intro hm
        have := List.eq_of_mem_replicate hm
        omega

/-- Each clause is listed as often as the name occurs in its body. -/
lemma count_occurrences {v : Name} {i : Nat} {c : Clause} (h : clauses[i]? = some c) :
    (occurrences clauses v).count i = c.body.count v := by
  have := count_flatMap_zipIdx v 0 h
  rwa [Nat.zero_add] at this

/-! ## The invariant -/

/-- The number of occurrences in a body whose names are not among `names`. -/
def outside (names body : List Name) : Nat := (body.filter (· ∉ names)).length

/-- All of a body is outside of nothing. -/
lemma outside_nil (body : List Name) : outside [] body = body.length := by
  rw [outside, List.filter_eq_self.2 (by simp)]

/-- **Settling one more name** takes its occurrences away from those outside. The name must not
have been settled before, or its occurrences would be taken away twice. -/
lemma outside_append_singleton {names : List Name} {v : Name} (hv : v ∉ names)
    (body : List Name) : outside (names ++ [v]) body + body.count v = outside names body := by
  unfold outside
  induction body with
  | nil => rfl
  | cons u body ih =>
    by_cases huv : u = v
    · subst huv
      simp [hv] at ih ⊢
      omega
    · by_cases hu : u ∈ names
      · simp [hu, huv] at ih ⊢
        omega
      · simp [hu, huv] at ih ⊢
        omega

/-- Nothing of a body is outside exactly when all of it is inside. -/
lemma outside_eq_zero {names body : List Name} :
    outside names body = 0 ↔ ∀ v ∈ body, v ∈ names := by
  simp [outside, List.filter_eq_nil_iff]

/-- **The invariant of a saturation.** The first condition says what the counts stand for; the
second keeps a name from being settled twice; the last two say that the names found are neither too
few nor too many. -/
structure Counted (clauses : List Clause) (s : Saturation) : Prop where
  /-- A count is the number of occurrences that are not settled or wait on the agenda. -/
  count : ∀ (i : Nat) (c : Clause), clauses[i]? = some c →
    s.pending[i]? = some (outside s.settled c.body + s.agenda.count i)
  /-- No name is found twice. -/
  nodup : s.found.Nodup
  /-- The head of a clause whose count is zero has been found. -/
  complete : ∀ (i : Nat) (c : Clause), clauses[i]? = some c → s.pending[i]? = some 0 →
    c.head ∈ s.found
  /-- Only entailed names are found. -/
  sound : ∀ v ∈ s.found, Entails clauses v

/-- A clause without unsettled occurrences has an entailed head. -/
lemma Counted.entails_head (h : Counted clauses s) {c : Clause} (hc : c ∈ clauses)
    (hbody : outside s.settled c.body = 0) : Entails clauses c.head :=
  .head hc fun v hv =>
    h.sound v (List.mem_append_left _ (outside_eq_zero.1 hbody v hv))

/-! ## Runs keep the invariant -/

/-- Counting an occurrence of the agenda keeps the invariant.

**Proof sketch.** The agenda loses the occurrence that the count of clause `i` loses; all other
counts stay. If the count of clause `i` becomes zero, none of its occurrences is unsettled or on
the agenda any more, so its head is entailed, and it is found in this step. -/
lemma Counted.countDown (h : Counted clauses s) {i : Nat} {agenda : List Nat}
    (hagenda : s.agenda = i :: agenda) :
    Counted clauses (countDown clauses { s with agenda := agenda } i) := by
  set s' : Saturation := { s with pending := s.pending.modify i (· - 1), agenda := agenda } with hs'
  have hpending :
      ∀ k, s'.pending[k]? = (s.pending[k]?).map fun n => if i = k then n - 1 else n := by
    intro k
    simp only [hs', Array.getElem?_modify]
    split <;> simp
  have hcount : ∀ (k : Nat) (c : Clause), clauses[k]? = some c →
      s'.pending[k]? = some (outside s.settled c.body + agenda.count k) := by
    intro k c hc
    rw [hpending, h.count k c hc, hagenda, List.count_cons]
    by_cases hik : i = k
    · simp [hik]
    · simp [hik]
  have hsettled : s'.settled = s.settled := rfl
  have hfound : s'.found = s.found := rfl
  -- a clause whose count was zero before had its head found before
  have hold : ∀ (k : Nat) (c : Clause), clauses[k]? = some c → k ≠ i → s'.pending[k]? = some 0 →
      c.head ∈ s.found := by
    intro k c hc hk h0
    refine h.complete k c hc ?_
    rw [hpending] at h0
    simpa [Ne.symm hk] using h0
  unfold Saturation.countDown
  dsimp only
  rw [← hs']
  split
  · next c hc h0 =>
    refine ⟨?_, ?_, ?_, ?_⟩
    · intro k d hd
      rw [pending_find, settled_find, agenda_find]
      exact hcount k d hd
    · exact nodup_found_find (hfound ▸ h.nodup) _
    · intro k d hd hk0
      rw [pending_find] at hk0
      rw [mem_found_find]
      by_cases hk : k = i
      · subst hk
        rw [hc] at hd
        exact .inr (by rw [Option.some.inj hd])
      · exact .inl (hold k d hd hk hk0)
    · intro v hv
      rcases mem_found_find.1 hv with hv | rfl
      · exact h.sound v hv
      · refine h.entails_head (List.mem_of_getElem? hc) ?_
        have := hcount i c hc
        rw [h0, Option.some.injEq] at this
        omega
  · next hno =>
    refine ⟨hcount, h.nodup, ?_, h.sound⟩
    intro k c hc h0
    by_cases hk : k = i
    · subst hk
      exact absurd h0 (hno c hc)
    · exact hold k c hc hk h0

/-- Settling a name keeps the invariant.

**Proof sketch.** A name waiting in the queue has not been settled, as no name is found twice. So
its occurrences leave the unsettled ones, and they are exactly what the agenda lists. -/
lemma Counted.settle (h : Counted clauses s) {v : Name} {queue : List Name}
    (hagenda : s.agenda = []) (hqueue : s.queue = v :: queue) :
    Counted clauses (settle clauses s v queue) := by
  have hfound : (Saturation.settle clauses s v queue).found = s.found := by
    simp [Saturation.settle, found, hqueue]
  have hv : v ∉ s.settled := by
    intro hm
    have hnodup := h.nodup
    rw [found, hqueue, List.nodup_append] at hnodup
    exact hnodup.2.2 v hm v List.mem_cons_self rfl
  refine ⟨?_, hfound ▸ h.nodup, ?_, ?_⟩
  · intro i c hc
    have hcount := h.count i c hc
    rw [hagenda, List.count_nil, Nat.add_zero] at hcount
    have hout := outside_append_singleton hv c.body
    simp only [Saturation.settle, hcount, count_occurrences hc]
    rw [hout]
  · intro i c hc h0
    rw [hfound]
    exact h.complete i c hc h0
  · intro u hu
    rw [hfound] at hu
    exact h.sound u hu

/-- **Every step keeps the invariant**: a step either counts the first occurrence of the agenda or
settles the first name of the queue. -/
lemma Counted.step {t : Saturation} (h : Counted clauses s) (hstep : step? clauses s = some t) :
    Counted clauses t := by
  unfold step? at hstep
  split at hstep
  · next i agenda hagenda =>
    obtain rfl := Option.some.inj hstep
    exact h.countDown hagenda
  · next v queue hagenda hqueue =>
    obtain rfl := Option.some.inj hstep
    exact h.settle hagenda hqueue
  · cases hstep

/-- **A run keeps the invariant**, by induction on its steps. -/
lemma Counted.run (h : Counted clauses s) : Counted clauses (run clauses s) := by
  fun_induction Saturation.run clauses s with
  | case1 s t hstep ih => exact ih (h.step hstep)
  | case2 => exact h

/-! ## The beginning and the end -/

/-- Finding one name after the other changes no count, settles nothing and lists each name once. In
the end the names found are those found before and the ones of the list. -/
lemma foldl_find (names : List Name) (hnodup : s.found.Nodup) :
    (names.foldl find s).pending = s.pending ∧ (names.foldl find s).settled = s.settled ∧
      (names.foldl find s).agenda = s.agenda ∧ (names.foldl find s).found.Nodup ∧
      ∀ v, v ∈ (names.foldl find s).found ↔ v ∈ s.found ∨ v ∈ names := by
  induction names generalizing s with
  | nil => simp [hnodup]
  | cons u names ih =>
    obtain ⟨hp, hs, ha, hn, hm⟩ := ih (nodup_found_find hnodup u)
    rw [List.foldl_cons]
    refine ⟨by rw [hp, pending_find], by rw [hs, settled_find], by rw [ha, agenda_find], hn, ?_⟩
    intro v
    rw [hm, mem_found_find, List.mem_cons, or_assoc]

/-- **The invariant holds in the beginning.**

**Proof sketch.** Nothing is settled and the agenda is empty, so the count of a clause is to be the
length of its body, which it is. It is zero for the clauses with an empty body only; their heads
have been found, and they are entailed by these clauses. -/
lemma counted_start (clauses : List Clause) : Counted clauses (start clauses) := by
  set s : Saturation := ⟨(clauses.map (·.body.length)).toArray, [], [], []⟩ with hs
  obtain ⟨hp, hset, ha, hn, hm⟩ := foldl_find (s := s)
    ((clauses.filter (·.body.isEmpty)).map (·.head)) (by simp [hs, found])
  have hfound : ∀ v, v ∈ (start clauses).found ↔ ∃ c ∈ clauses, c.body = [] ∧ c.head = v := by
    intro v
    unfold start
    rw [hm]
    simp [hs, found, and_assoc]
  have hcount : ∀ (i : Nat) (c : Clause), clauses[i]? = some c →
      (start clauses).pending[i]? = some c.body.length := by
    intro i c hc
    unfold start
    rw [hp]
    simp [hs, hc]
  refine ⟨?_, hn, ?_, ?_⟩
  · intro i c hc
    rw [hcount i c hc]
    unfold start
    rw [hset, ha, outside_nil]
    rfl
  · intro i c hc h0
    rw [hcount i c hc, Option.some.injEq] at h0
    exact (hfound _).2 ⟨c, List.mem_of_getElem? hc, List.length_eq_zero_iff.1 h0, rfl⟩
  · intro v hv
    obtain ⟨c, hc, hbody, rfl⟩ := (hfound v).1 hv
    exact .head hc (by simp [hbody])

/-- **At the end** all names found are settled and the agenda is empty. -/
lemma settled_of_step?_eq_none (h : step? clauses s = none) :
    s.agenda = [] ∧ s.found = s.settled := by
  unfold step? at h
  split at h
  · cases h
  · cases h
  · next hagenda hqueue => exact ⟨hagenda, by simp [found, hqueue]⟩

end Saturation

open Saturation in
/-- **Saturation is exact.** The names found are those that the clauses entail.

**Proof sketch.** Only entailed names are found, by the invariant. For the converse, induction on
entailment: at the end all names found are settled, so a clause whose body has been found has no
unsettled occurrence, hence the count zero, and its head has been found too. -/
theorem mem_saturate {clauses : List Clause} {v : Name} :
    v ∈ saturate clauses ↔ Entails clauses v := by
  have hrun := (counted_start clauses).run
  obtain ⟨hagenda, hfound⟩ := settled_of_step?_eq_none (step?_run clauses (start clauses))
  unfold saturate
  rw [SortedSet.mem_ofList]
  constructor
  · exact hrun.sound v
  · intro h
    induction h with
    | head hc _ ih =>
      obtain ⟨i, hi⟩ := List.mem_iff_getElem?.1 hc
      refine hrun.complete i _ hi ?_
      rw [hrun.count i _ hi, hagenda, outside_eq_zero.2 fun u hu => hfound ▸ ih u hu]
      rfl

end ChomskyForm
