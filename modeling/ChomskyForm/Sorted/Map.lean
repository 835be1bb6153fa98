import ChomskyForm.Sorted.Set

set_option autoImplicit false
set_option relaxedAutoImplicit false

/-!
# Finite maps as lists with ascending keys

A finite map from an ordered type is kept as the list of its entries in strictly ascending
order of keys. As with sets, two maps with the same entries are equal, and a key whose value
is an empty set is not the same as a key that is absent.

## Main definitions

* `ChomskyForm.SortedMap`: a list of entries with strictly ascending keys.
* `ChomskyForm.SortedMap.get?`: the value at a key.
* `ChomskyForm.SortedMap.update`: sets the value at a key, given the one that was there.
* `ChomskyForm.SortedMap.mapValues`, `filterKeys`, `ofKeys`, `ofList`: the other ways to make
  a map.

## Main results

* `ChomskyForm.SortedMap.mem_toList`: the entries are what `get?` finds.
* `ChomskyForm.SortedMap.ext`: maps with the same values at all keys are equal.
* `ChomskyForm.SortedMap.get?_update`, `get?_mapValues`, `get?_filterKeys`, `get?_ofKeys`: what
  each operation does to `get?`.
-/

namespace ChomskyForm

open Std

universe u v w

/-! ## Lookup and update in a list with ascending keys -/

section Entries

variable {κ : Type u} {β : Type v} [Ord κ]

/-- **Lookup.** The value at `k`; the search ends at the first greater key. -/
def lookupAscending (k : κ) : List (κ × β) → Option β
  | [] => none
  | (j, b) :: l =>
    match compare k j with
    | .lt => none
    | .eq => some b
    | .gt => lookupAscending k l

/-- **Update.** Gives `k` the value that `f` makes of the present one, `none` standing for an
absent key. -/
def updateAscending (k : κ) (f : Option β → β) : List (κ × β) → List (κ × β)
  | [] => [(k, f none)]
  | (j, b) :: l =>
    match compare k j with
    | .lt => (k, f none) :: (j, b) :: l
    | .eq => (j, f (some b)) :: l
    | .gt => (j, b) :: updateAscending k f l

/-- **Lookup finds exactly the entries** of an ascending list.

**Proof sketch.** Induction on the list, by the comparison of `k` with the head's key. If `k` is
smaller, lookup gives up, and rightly so: all later keys are greater still. If it is equal, the
head is the entry, and no later one has the same key. If it is greater, the head is not the entry
and the rest decides. -/
theorem lookupAscending_eq_some [TransOrd κ] [LawfulEqOrd κ] {k : κ} {b : β} {l : List (κ × β)}
    (h : l.Pairwise fun p q => compare p.1 q.1 = .lt) :
    lookupAscending k l = some b ↔ (k, b) ∈ l := by
  induction l with
  | nil => simp [lookupAscending]
  | cons e l ih =>
    obtain ⟨j, c⟩ := e
    rw [List.pairwise_cons] at h
    have above : ∀ {d : β}, (k, d) ∈ l → compare j k = .lt := fun hd => h.1 _ hd
    unfold lookupAscending
    split
    · next hlt =>
      constructor
      · intro hn; cases hn
      · intro hm
        rcases List.mem_cons.1 hm with hm | hm
        · cases hm
          exact absurd (hlt.symm.trans compare_self) (by decide)
        · exact absurd ((TransCmp.lt_trans hlt (above hm)).symm.trans compare_self) (by decide)
    · next heq =>
      have hkj : k = j := LawfulEqCmp.eq_of_compare heq
      subst hkj
      constructor
      · intro hs; cases hs; simp
      · intro hm
        rcases List.mem_cons.1 hm with hm | hm
        · cases hm; rfl
        · exact absurd ((above hm).symm.trans compare_self) (by decide)
    · next hgt =>
      rw [ih h.2]
      constructor
      · exact fun hm => List.mem_cons_of_mem _ hm
      · intro hm
        rcases List.mem_cons.1 hm with hm | hm
        · cases hm
          exact absurd (hgt.symm.trans compare_self) (by decide)
        · exact hm

/-- **The keys after an update** are the updated one and the old ones. Only keys are compared,
since the value at the updated key is a new one.

**Proof sketch.** Induction on the list, by the comparison of `k` with the head's key: the entry in
question is the new one, the head, or one of the rest. -/
theorem fst_mem_updateAscending [TransOrd κ] [LawfulEqOrd κ] {k : κ} {f : Option β → β}
    {l : List (κ × β)} {e : κ × β} (h : e ∈ updateAscending k f l) :
    e.1 = k ∨ ∃ e' ∈ l, e.1 = e'.1 := by
  induction l with
  | nil =>
    simp only [updateAscending, List.mem_singleton] at h
    exact .inl (by rw [h])
  | cons e' l ih =>
    obtain ⟨j, b⟩ := e'
    unfold updateAscending at h
    split at h
    · rcases List.mem_cons.1 h with rfl | h
      · exact .inl rfl
      · exact .inr ⟨e, h, rfl⟩
    · rcases List.mem_cons.1 h with rfl | h
      · exact .inr ⟨_, List.mem_cons_self, rfl⟩
      · exact .inr ⟨e, List.mem_cons_of_mem _ h, rfl⟩
    · rcases List.mem_cons.1 h with rfl | h
      · exact .inr ⟨_, List.mem_cons_self, rfl⟩
      · rcases ih h with hk | ⟨e', he', hk⟩
        · exact .inl hk
        · exact .inr ⟨e', List.mem_cons_of_mem _ he', hk⟩

/-- **An update keeps the keys ascending.**

**Proof sketch.** Induction on the list, by the comparison of `k` with the head's key. If `k` is
smaller, it is below the head and by transitivity below the rest. If it is equal, the keys stay as
they are. If it is greater, the keys of the updated rest are `k` and old ones
(`fst_mem_updateAscending`), all of them above the head. -/
theorem pairwise_updateAscending [TransOrd κ] [LawfulEqOrd κ] {k : κ} {f : Option β → β}
    {l : List (κ × β)} (h : l.Pairwise fun p q => compare p.1 q.1 = .lt) :
    (updateAscending k f l).Pairwise fun p q => compare p.1 q.1 = .lt := by
  induction l with
  | nil => simp [updateAscending]
  | cons e l ih =>
    obtain ⟨j, b⟩ := e
    have h' := h
    rw [List.pairwise_cons] at h
    unfold updateAscending
    split
    · next hkj =>
      refine List.pairwise_cons.2 ⟨fun e he => ?_, h'⟩
      rcases List.mem_cons.1 he with rfl | he
      · exact hkj
      · exact TransCmp.lt_trans hkj (h.1 e he)
    · exact List.pairwise_cons.2 ⟨fun e he => h.1 e he, h.2⟩
    · next hkj =>
      refine List.pairwise_cons.2 ⟨fun e he => ?_, ih h.2⟩
      rcases fst_mem_updateAscending he with hk | ⟨e', he', hk⟩
      · simp only [hk]
        exact OrientedCmp.gt_iff_lt.1 hkj
      · rw [hk]
        exact h.1 e' he'

/-- **An update changes the value at its own key only.** The list need not be ascending: both walks
take the same branches up to the place of `k`.

**Proof sketch.** Induction on the list, by the comparison of `k` with the head's key, and then by
whether `j` is `k`. For another key `j` the walk either ends before the place of `k` or goes past
it. -/
theorem lookupAscending_updateAscending [TransOrd κ] [LawfulEqOrd κ] [DecidableEq κ] {j k : κ}
    {f : Option β → β} {l : List (κ × β)} :
    lookupAscending j (updateAscending k f l) =
      if j = k then some (f (lookupAscending k l)) else lookupAscending j l := by
  induction l with
  | nil =>
    by_cases hjk : j = k
    · subst hjk; simp [updateAscending, lookupAscending, compare_self]
    · have : compare j k ≠ .eq := fun h => hjk (LawfulEqCmp.eq_of_compare h)
      simp only [updateAscending, lookupAscending, hjk, if_false]
      split <;> simp_all
  | cons e l ih =>
    obtain ⟨i, b⟩ := e
    unfold updateAscending
    split
    · next hki =>
      by_cases hjk : j = k
      · subst hjk; simp [lookupAscending, compare_self, hki]
      · simp only [hjk, if_false]
        have hne : compare j k ≠ .eq := fun h => hjk (LawfulEqCmp.eq_of_compare h)
        rw [lookupAscending]
        split
        · next hlt => rw [lookupAscending, TransCmp.lt_trans hlt hki]
        · contradiction
        · rfl
    · next hki =>
      have hki' : k = i := LawfulEqCmp.eq_of_compare hki
      subst hki'
      by_cases hjk : j = k
      · subst hjk; simp [lookupAscending, compare_self]
      · have hne : compare j k ≠ .eq := fun h => hjk (LawfulEqCmp.eq_of_compare h)
        simp only [hjk, if_false, lookupAscending]
        split
        · rfl
        · contradiction
        · rfl
    · next hki =>
      by_cases hjk : j = k
      · subst hjk; simp [lookupAscending, hki, ih]
      · simp only [hjk, if_false] at ih ⊢
        simp only [lookupAscending, ih]

end Entries

/-! ## Maps -/

/-- **Finite maps.** The entries in strictly ascending order of keys. As with sets the order is a
field: no map can hold two entries with one key, and maps with the same entries are equal. -/
structure SortedMap (κ : Type u) (β : Type v) [Ord κ] where
  /-- The entries, from the least key to the greatest. -/
  toList : List (κ × β)
  /-- Each key is below all later ones. -/
  ascending : toList.Pairwise fun p q => compare p.1 q.1 = .lt

namespace SortedMap

variable {κ : Type u} {β : Type v} {γ : Type w} [Ord κ]

/-- Maps are compared by their lists of entries. -/
instance [DecidableEq κ] [DecidableEq β] : DecidableEq (SortedMap κ β) := fun s t =>
  decidable_of_iff (s.toList = t.toList)
    ⟨fun h => by cases s; cases t; simpa using h, fun h => congrArg toList h⟩

/-- **Lookup.** The value at a key. -/
def get? (m : SortedMap κ β) (k : κ) : Option β := lookupAscending k m.toList

/-- **The entries of a map are what lookup finds.** This ties the two views together: walks over a
map go by its entries, everything else is stated by `get?`. -/
theorem mem_toList [TransOrd κ] [LawfulEqOrd κ] {m : SortedMap κ β} {k : κ} {b : β} :
    (k, b) ∈ m.toList ↔ m.get? k = some b :=
  (lookupAscending_eq_some m.ascending).symm

/-- **The empty map.** -/
def empty : SortedMap κ β := ⟨[], List.Pairwise.nil⟩

/-- The empty map is written as usual. -/
instance : EmptyCollection (SortedMap κ β) := ⟨empty⟩

/-- The empty map serves as the default. -/
instance : Inhabited (SortedMap κ β) := ⟨empty⟩

/-- In the empty map nothing is found. -/
@[simp] theorem get?_empty {k : κ} : (∅ : SortedMap κ β).get? k = none := rfl

/-- **Keys**, in their order. They ascend because the entries do. -/
def keys (m : SortedMap κ β) : SortedSet κ :=
  ⟨m.toList.map Prod.fst, List.pairwise_map.2 m.ascending⟩

/-- The keys of a map are those of its entries. -/
theorem mem_keys {m : SortedMap κ β} {k : κ} : k ∈ m.keys ↔ ∃ b, (k, b) ∈ m.toList := by
  simp [keys, SortedSet.mem_def]

/-- The keys are where lookup finds something. -/
theorem mem_keys_iff_isSome [TransOrd κ] [LawfulEqOrd κ] {m : SortedMap κ β} {k : κ} :
    k ∈ m.keys ↔ (m.get? k).isSome := by
  simp only [mem_keys, mem_toList, Option.isSome_iff_exists]

/-- **Values**, in the order of their keys. -/
def values (m : SortedMap κ β) : List β := m.toList.map Prod.snd

/-- **Change of values.** Every key keeps its place; the new value may depend on the key. -/
def mapValues (f : κ → β → γ) (m : SortedMap κ β) : SortedMap κ γ :=
  ⟨m.toList.map fun e => (e.1, f e.1 e.2), List.pairwise_map.2 m.ascending⟩

/-- **Selection.** The entries whose key satisfies `p`, with the values they have. -/
def filterKeys (p : κ → Bool) (m : SortedMap κ β) : SortedMap κ β :=
  ⟨m.toList.filter fun e => p e.1, m.ascending.filter _⟩

/-- **Tabulation.** The map with the keys `s` and the value `f k` at each key `k`. -/
def ofKeys (s : SortedSet κ) (f : κ → β) : SortedMap κ β :=
  ⟨s.toList.map fun k => (k, f k), List.pairwise_map.2 s.ascending⟩

/-- A change of values keeps the keys. -/
@[simp] theorem keys_mapValues {m : SortedMap κ β} {f : κ → β → γ} :
    (m.mapValues f).keys = m.keys := by
  simp [keys, mapValues, Function.comp_def]

/-- A tabulation has the keys that it was made for, those with an empty value included. -/
@[simp] theorem keys_ofKeys {s : SortedSet κ} {f : κ → β} : (ofKeys s f).keys = s := by
  cases s
  simp [keys, ofKeys, Function.comp_def]

section Lawful

variable [TransOrd κ] [LawfulEqOrd κ]

/-- **Extensionality.** Maps with the same values at all keys are equal: their entries are what
lookup finds, and an ascending list is determined by its members. -/
theorem ext {m n : SortedMap κ β} (h : ∀ k, m.get? k = n.get? k) : m = n := by
  have hmem : ∀ e, e ∈ m.toList ↔ e ∈ n.toList := fun ⟨k, b⟩ => by
    rw [mem_toList, mem_toList, h]
  have : m.toList = n.toList := eq_of_pairwise_of_mem_iff (fun _ => compare_self_ne_lt)
    TransCmp.lt_trans m.ascending n.ascending hmem
  cases m; cases n; simpa using this

/-- **Update.** Gives `k` the value that `f` makes of the present one, `none` standing for an
absent key. Insertion and the collecting of alternatives under a left-hand side are both updates. -/
def update (k : κ) (f : Option β → β) (m : SortedMap κ β) : SortedMap κ β :=
  ⟨updateAscending k f m.toList, pairwise_updateAscending m.ascending⟩

/-- An update changes the value at its own key only. -/
theorem get?_update [DecidableEq κ] {m : SortedMap κ β} {j k : κ} {f : Option β → β} :
    (m.update k f).get? j = if j = k then some (f (m.get? k)) else m.get? j :=
  lookupAscending_updateAscending

/-- **Insertion.** Gives `k` the value `b`, whatever it had. -/
def insert (k : κ) (b : β) (m : SortedMap κ β) : SortedMap κ β := m.update k fun _ => b

/-- An insertion gives its own key the new value and leaves all others alone. -/
theorem get?_insert [DecidableEq κ] {m : SortedMap κ β} {j k : κ} {b : β} :
    (m.insert k b).get? j = if j = k then some b else m.get? j :=
  get?_update

/-- **The map of a list of entries.** The entries are inserted from the first to the last, so that
of several entries with one key the last one counts. -/
def ofList (l : List (κ × β)) : SortedMap κ β := l.foldl (fun m e => m.insert e.1 e.2) ∅

/-- An option that finds exactly the values of another one is the same. -/
private theorem option_eq_of_some_iff {o p : Option γ} (h : ∀ c, o = some c ↔ p = some c) :
    o = p := by
  cases o with
  | none =>
    cases p with
    | none => rfl
    | some c => exact absurd ((h c).2 rfl) (by simp)
  | some c => exact ((h c).1 rfl).symm

/-- Entries with ascending keys, inserted one after another: each key gets its value, and all other
keys keep theirs.

**Proof sketch.** Induction on the entries, with any map to begin with. The first entry is not
overwritten, since its key does not come again; and for every other key it makes no difference that
it was inserted. -/
theorem get?_foldl_insert_eq_some [DecidableEq κ] {l : List (κ × β)} {m : SortedMap κ β} {k : κ}
    {b : β} (h : l.Pairwise fun p q => compare p.1 q.1 = .lt) :
    (l.foldl (fun m e => m.insert e.1 e.2) m).get? k = some b ↔
      (k, b) ∈ l ∨ (∀ c, (k, c) ∉ l) ∧ m.get? k = some b := by
  induction l generalizing m with
  | nil => simp
  | cons e l ih =>
    obtain ⟨j, c⟩ := e
    rw [List.pairwise_cons] at h
    rw [List.foldl_cons, ih h.2, get?_insert]
    by_cases hkj : k = j
    · subst hkj
      have hnew : ∀ d, (k, d) ∉ l := fun d hd => compare_self_ne_lt (h.1 (k, d) hd)
      simp [hnew, eq_comm]
    · simp [hkj]

/-- **A map is the map of its own entries**: nothing is lost by writing a map down as a list and
reading the list back. -/
@[simp] theorem ofList_toList [DecidableEq κ] (m : SortedMap κ β) : ofList m.toList = m := by
  refine ext fun k => option_eq_of_some_iff fun b => ?_
  rw [ofList, get?_foldl_insert_eq_some m.ascending, mem_toList]
  simp

/-- After a change of values, lookup finds the changed value of what it found before. -/
@[simp] theorem get?_mapValues {m : SortedMap κ β} {f : κ → β → γ} {k : κ} :
    (m.mapValues f).get? k = (m.get? k).map (f k) := by
  refine option_eq_of_some_iff fun c => ?_
  rw [← mem_toList, Option.map_eq_some_iff]
  simp only [mapValues, List.mem_map, Prod.mk.injEq, ← mem_toList]
  constructor
  · rintro ⟨⟨j, b⟩, he, rfl, rfl⟩
    exact ⟨b, he, rfl⟩
  · rintro ⟨b, he, rfl⟩
    exact ⟨(k, b), he, rfl, rfl⟩

/-- In a selection lookup finds what it found before, at the selected keys only. -/
@[simp] theorem get?_filterKeys {m : SortedMap κ β} {p : κ → Bool} {k : κ} :
    (m.filterKeys p).get? k = if p k then m.get? k else none := by
  refine option_eq_of_some_iff fun c => ?_
  rw [← mem_toList]
  by_cases hp : p k <;> simp [filterKeys, hp, mem_toList]

/-- **In a tabulation lookup finds the tabulated value** at each key of `s`, and nothing
elsewhere. -/
@[simp] theorem get?_ofKeys [DecidableEq κ] {s : SortedSet κ} {f : κ → β} {k : κ} :
    (ofKeys s f).get? k = if k ∈ s then some (f k) else none := by
  refine option_eq_of_some_iff fun c => ?_
  rw [← mem_toList]
  simp only [ofKeys, List.mem_map, Prod.mk.injEq]
  by_cases hk : k ∈ s
  · simp only [hk, if_true, Option.some.injEq]
    constructor
    · rintro ⟨j, _, rfl, rfl⟩
      rfl
    · rintro rfl
      exact ⟨k, hk, rfl, rfl⟩
  · simp only [hk, if_false]
    constructor
    · rintro ⟨j, hj, rfl, _⟩
      exact absurd hj hk
    · intro h
      cases h

end Lawful

end SortedMap

end ChomskyForm
