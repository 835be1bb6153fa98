import ChomskyForm.Proofs.Freshness
import ChomskyForm.Proofs.StageOrder

set_option autoImplicit false
set_option relaxedAutoImplicit false

/-!
# Fresh names are as early as possible

The names of a stem have an order: the numbers count up, and names with fewer primes come before
names with more. Each fresh name is the first one of its stem that is in use neither in the grammar
nor by a name that was drawn before. Several stems share the names in use, and the names of
different stems may be the same; so a stem that goes on from where it stopped has to pass over
names that were drawn for others in between, and it must not have left behind a name that is
unused.

## Main definitions

* `ChomskyForm.numberedName`: the names of a stem.
* `ChomskyForm.FirstUnused`: the first name of a stem that is not in use.
* `ChomskyForm.FreshNames.Exhausted`: the invariant of a supply.

## Main results

* `ChomskyForm.FreshNames.Exhausted.firstUnused`, `ChomskyForm.FreshNames.Exhausted.fresh`: what a
  single draw gives, and that it keeps the invariant.
* `ChomskyForm.FreshNames.Exhausted.freshList`: what several draws give.
* `ChomskyForm.FreshNames.freshList_exact`: the fresh names of a grammar, for any stems in turn.
-/

namespace ChomskyForm

/-! ## The names of a stem -/

/-- **The names of a stem**: the stem, some primes and a number in base 10. -/
def numberedName (stem : Name) (primes number : Nat) : Name :=
  stem ++ String.ofList (List.replicate primes '\x27') ++ toString number

/-- **The first unused name of a stem.** The numbers run from `first` to 2⁶⁴ - 1, at first without
a prime, then with one prime, and so on. The name itself is not in use, and all names before it
are. -/
def FirstUnused (first : UInt64) (stem : Name) (used : Name → Prop) (name : Name) : Prop :=
  ∃ primes number, (first.toNat ≤ number ∧ number < UInt64.size) ∧
    name = numberedName stem primes number ∧ ¬ used name ∧
    ∀ primes' number', first.toNat ≤ number' ∧ number' < UInt64.size →
      primes' < primes ∨ primes' = primes ∧ number' < number →
        used (numberedName stem primes' number')

/-- There is at least one number to count with, also when the first one is the greatest. -/
lemma span_pos (first : UInt64) : 0 < UInt64.size - first.toNat :=
  Nat.sub_pos_of_lt first.toNat_lt_size

/-- **Positions.** The name with given primes and number is the candidate at the position that is
reached after the numbers have been run through once for each prime.

**Proof sketch.** Division of the position by the length of a run gives the primes, and the
remainder gives how far the number is from the first one. -/
lemma candidate_position (first : UInt64) (stem : Name) (primes : Nat) {number : Nat}
    (hnumber : first.toNat ≤ number ∧ number < UInt64.size) :
    candidate first stem (primes * (UInt64.size - first.toNat) + (number - first.toNat)) =
      numberedName stem primes number := by
  have hlt : number - first.toNat < UInt64.size - first.toNat := by omega
  have hprimes : (primes * (UInt64.size - first.toNat) + (number - first.toNat)) /
      (UInt64.size - first.toNat) = primes := by
    rw [Nat.mul_comm, Nat.mul_add_div (span_pos first), Nat.div_eq_of_lt hlt, Nat.add_zero]
  have hrest : (primes * (UInt64.size - first.toNat) + (number - first.toNat)) %
      (UInt64.size - first.toNat) = number - first.toNat := by
    rw [Nat.mul_comm, Nat.mul_add_mod, Nat.mod_eq_of_lt hlt]
  simp only [candidate, numberedName, hprimes, hrest, Nat.add_sub_cancel' hnumber.1]

/-- **The order of positions** is the order of names: fewer primes come first, then smaller
numbers. -/
lemma position_lt {span m m' k k' : Nat} (hk : k' < span) (h : m' < m ∨ m' = m ∧ k' < k) :
    m' * span + k' < m * span + k := by
  rcases h with hm | ⟨rfl, hk'⟩
  · have hle : (m' + 1) * span ≤ m * span := Nat.mul_le_mul_right span hm
    rw [Nat.add_mul, Nat.one_mul] at hle
    omega
  · omega

/-- **The first unused candidate is the first unused name.**

**Proof sketch.** A name that comes before has a position (`candidate_position`), and this is a
smaller one (`position_lt`), so the name is in use. -/
lemma firstUnused_of_candidate {first : UInt64} {stem : Name} {used : Name → Prop} {p : Nat}
    (hnew : ¬ used (candidate first stem p)) (hbefore : ∀ q < p, used (candidate first stem q)) :
    FirstUnused first stem used (candidate first stem p) := by
  set span := UInt64.size - first.toNat with hspan
  have hmod : p % span < span := Nat.mod_lt p (span_pos first)
  refine ⟨p / span, first.toNat + p % span, by omega, rfl, hnew,
    fun primes' number' hnumber hlt => ?_⟩
  rw [← candidate_position first stem primes' hnumber]
  refine hbefore _ ?_
  -- the position `p` has the same form as the positions of names
  calc primes' * span + (number' - first.toNat) < p / span * span + p % span := by
        refine position_lt (by omega) ?_
        rcases hlt with hprimes | ⟨rfl, hlt⟩
        · exact .inl hprimes
        · exact .inr ⟨rfl, by omega⟩
    _ = p := Nat.div_add_mod' p span

namespace FreshNames

variable {names : FreshNames} {stem : Name}

/-! ## A single draw -/

/-- **The invariant of a supply.** The candidates of a stem are in use up to the position from
which its sequence goes on. So no unused name is left behind. -/
def Exhausted (names : FreshNames) : Prop :=
  ∀ stem, ∀ q < (names.next.get? stem).getD 0, candidate names.firstIndex stem q ∈ names.used

/-- In the beginning all sequences go on from their first candidates, so there is nothing to be in
use before them. -/
lemma exhausted_ofGrammar (g : Grammar) (first : UInt64) : (ofGrammar g first).Exhausted :=
  fun _ _ hq => absurd hq (Nat.not_lt_zero _)

/-- **A fresh name comes from the first position with an unused candidate.** The search begins where
the sequence of the stem goes on, and what comes before is in use. -/
lemma Exhausted.exists_position (h : names.Exhausted) (stem : Name) :
    ∃ p, (names.fresh stem).1 = candidate names.firstIndex stem p ∧
      (names.fresh stem).2.next = names.next.insert stem (p + 1) ∧
      candidate names.firstIndex stem p ∉ names.used ∧
      ∀ q < p, candidate names.firstIndex stem q ∈ names.used := by
  have hinj : ∀ p q,
      candidate names.firstIndex stem p = candidate names.firstIndex stem q → p = q :=
    fun _ _ => candidate_injective
  obtain ⟨-, hnew, hbetween⟩ :=
    firstUnused_spec hinj names.used.toList ((names.next.get? stem).getD 0)
  refine ⟨_, rfl, rfl, hnew, fun q hq => ?_⟩
  rcases Nat.lt_or_ge q ((names.next.get? stem).getD 0) with hlt | hge
  · exact h stem q hlt
  · exact hbetween q hge hq

/-- **A fresh name is the first unused one** of its stem. -/
lemma Exhausted.firstUnused (h : names.Exhausted) (stem : Name) :
    FirstUnused names.firstIndex stem (· ∈ names.used) (names.fresh stem).1 := by
  obtain ⟨p, hname, -, hnew, hbefore⟩ := h.exists_position stem
  rw [hname]
  exact firstUnused_of_candidate hnew hbefore

/-- **A draw keeps the invariant.** The stem goes on after the fresh name, which is in use now; the
other stems go on from where they were.

**Proof sketch.** For the stem itself, the candidates up to the fresh name are in use as before,
and the fresh name is in use since it was drawn. For another stem nothing has changed but that
there is one name more in use. -/
lemma Exhausted.fresh (h : names.Exhausted) (stem : Name) : (names.fresh stem).2.Exhausted := by
  obtain ⟨p, hname, hnext, -, hbefore⟩ := h.exists_position stem
  intro other q hq
  refine (mem_used_fresh names stem).2 ?_
  change candidate names.firstIndex other q = _ ∨ candidate names.firstIndex other q ∈ _
  rw [hnext, SortedMap.get?_insert] at hq
  split at hq
  · next heq =>
    subst heq
    rw [Option.getD_some] at hq
    rcases Nat.lt_or_eq_of_le (Nat.le_of_lt_succ hq) with hlt | rfl
    · exact .inr (hbefore q hlt)
    · exact .inl hname.symm
  · exact .inr (h other q hq)

/-! ## Several draws -/

/-- A draw keeps the first number. -/
@[simp] lemma firstIndex_fresh (names : FreshNames) (stem : Name) :
    (names.fresh stem).2.firstIndex = names.firstIndex := rfl

/-- The first stem is served first, and the others from what is left of the supply. -/
lemma freshList_cons (names : FreshNames) (stem : Name) (stems : List Name) :
    names.freshList (stem :: stems) =
      (names.fresh stem).1 :: (names.fresh stem).2.freshList stems := rfl

/-- **There is one name for each stem**: no request goes unanswered. -/
lemma length_freshList (names : FreshNames) (stems : List Name) :
    (names.freshList stems).length = stems.length := by
  induction stems generalizing names with
  | nil => rfl
  | cons stem stems ih => rw [freshList_cons, List.length_cons, List.length_cons, ih]

/-- **Each of several fresh names is the first unused one** of its stem, where the names drawn
before it are in use too.

**Proof sketch.** Induction on the stems. The first draw keeps the invariant, and what is in use
after it are the names in use before and the first fresh name. -/
lemma Exhausted.freshList (h : names.Exhausted) {stems : List Name} {i : Nat} {name : Name}
    (hstem : stems[i]? = some stem) (hname : (names.freshList stems)[i]? = some name) :
    FirstUnused names.firstIndex stem
      (fun u => u ∈ names.used ∨ u ∈ (names.freshList stems).take i) name := by
  induction stems generalizing names i with
  | nil => cases hstem
  | cons head stems ih =>
    rw [freshList_cons] at hname ⊢
    cases i with
    | zero =>
      obtain rfl : head = stem := Option.some.inj hstem
      obtain rfl : (names.fresh head).1 = name := Option.some.inj hname
      simpa using h.firstUnused head
    | succ i =>
      have hrest := ih (h.fresh head) hstem hname
      have hused : ∀ u, u ∈ (names.fresh head).2.used ∨
            u ∈ ((names.fresh head).2.freshList stems).take i ↔
          u ∈ names.used ∨
            u ∈ ((names.fresh head).1 :: (names.fresh head).2.freshList stems).take (i + 1) := by
        intro u
        rw [mem_used_fresh, List.take_succ_cons, List.mem_cons, or_assoc]
        exact or_left_comm
      simpa only [hused, firstIndex_fresh] using hrest

/-- Names drawn later were not in use before, whatever has been drawn in between. -/
lemma notMem_used_of_mem_freshList {stems : List Name} {u : Name} (hu : u ∈ names.freshList stems) :
    u ∉ names.used := by
  induction stems generalizing names with
  | nil => cases hu
  | cons stem stems ih =>
    rcases List.mem_cons.1 hu with rfl | hu
    · exact names.fresh_notMem stem
    · exact fun hm => ih hu ((names.mem_used_fresh stem).2 (.inr hm))

/-- **No name is drawn twice**, since each is in use after it has been drawn, and later ones were
not in use then. -/
lemma nodup_freshList (names : FreshNames) (stems : List Name) : (names.freshList stems).Nodup := by
  induction stems generalizing names with
  | nil => exact List.nodup_nil
  | cons stem stems ih =>
    refine List.nodup_cons.2 ⟨fun hm => ?_, ih _⟩
    exact notMem_used_of_mem_freshList hm ((names.mem_used_fresh stem).2 (.inl rfl))

/-- The reserved name is never drawn. -/
lemma epsilonName_notMem_freshList (names : FreshNames) (stems : List Name) :
    epsilonName ∉ names.freshList stems := by
  induction stems generalizing names with
  | nil => exact List.not_mem_nil
  | cons stem stems ih =>
    rw [freshList_cons, List.mem_cons, not_or]
    exact ⟨(names.fresh_ne_epsilonName stem).symm, ih _⟩

/-- **Fresh names are new and as early as possible.** Whatever the first number, and whichever
stems are asked for in turn, each request gets a name: the first one of its stem that is neither a
variable nor a terminal of the grammar nor a name drawn before. So no name is drawn twice, and the
reserved name never is.

**Proof sketch.** The supply for a grammar has the invariant, and each draw keeps it, so each draw
gives the first unused name of its stem (`Exhausted.freshList`). What is in use at that moment are
the names of the grammar and those drawn before. -/
theorem freshList_exact (g : Grammar) (first : UInt64) (stems : List Name) :
    let names := (ofGrammar g first).freshList stems
    names.length = stems.length ∧
    (∀ i stem name, stems[i]? = some stem → names[i]? = some name →
      FirstUnused first stem
        (fun u => u ∈ g.nonterminals ∨ u ∈ g.terminals ∨ u ∈ names.take i) name) ∧
    names.Nodup ∧ epsilonName ∉ names := by
  intro names
  refine ⟨length_freshList _ stems, fun i stem name hstem hname => ?_, nodup_freshList _ stems,
    epsilonName_notMem_freshList _ stems⟩
  have hfirst := (exhausted_ofGrammar g first).freshList hstem hname
  simp only [mem_used_ofGrammar, or_assoc] at hfirst
  exact hfirst

/-- With the greatest number as the first one, each name of a stem has a prime more than the one
before. The second request gets a name that the third one has to pass over. -/
example : (ofGrammar Grammar.nested.toGrammar (UInt64.ofNat (UInt64.size - 1))).freshList
    ["S", "S\x27", "S"] =
      ["S18446744073709551615", "S\x2718446744073709551615", "S\x27\x2718446744073709551615"] := by
  cbv

end FreshNames

end ChomskyForm
