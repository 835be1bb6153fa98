set_option autoImplicit false
set_option relaxedAutoImplicit false

/-!
# Finite sets as ascending lists

A finite set over an ordered type is kept as the list of its members in strictly ascending
order. The order is part of the type, so two sets with the same members are equal, and every
walk over a set meets its members from the least to the greatest.

## Main definitions

* `ChomskyForm.SortedSet`: a strictly ascending list.
* `ChomskyForm.SortedSet.insert`, `union`, `filter`, `ofList`: the operations on sets.

## Main results

* `ChomskyForm.SortedSet.ext`: sets with the same members are equal.
* `ChomskyForm.SortedSet.mem_insert`, `mem_union`, `mem_filter`, `mem_ofList`: what each
  operation does to membership.
-/

namespace ChomskyForm

open Std

universe u v

/-! ## Insertion into an ascending list -/

section Insertion

variable {α : Type u} [Ord α]

/-- **Insertion.** Puts `a` before the first greater member; a member equal to `a` stays as it is.
The list is walked once, and nothing after the place of `a` is looked at. -/
def insertAscending (a : α) : List α → List α
  | [] => [a]
  | b :: l =>
    match compare a b with
    | .lt => a :: b :: l
    | .eq => b :: l
    | .gt => b :: insertAscending a l

/-- **The members after an insertion** are the new one and the old ones. When a member equal to `a`
is met the list stays as it is, and `a` is that member, since the order is lawful. -/
theorem mem_insertAscending [TransOrd α] [LawfulEqOrd α] {a c : α} {l : List α} :
    c ∈ insertAscending a l ↔ c = a ∨ c ∈ l := by
  induction l with
  | nil => simp [insertAscending]
  | cons b l ih =>
    unfold insertAscending
    split
    · simp
    · next h =>
      have hab : a = b := LawfulEqCmp.eq_of_compare h
      simp [hab]
    · simp only [List.mem_cons, ih]
      constructor
      · rintro (h | h | h) <;> simp [h]
      · rintro (h | h | h) <;> simp [h]

/-- Insertion keeps a list ascending.

**Proof sketch.** The three branches are those of the comparison with the head. When `a` is
the smaller one it is below the whole list by transitivity; when it is greater, every member
of the new tail is either `a` or an old member, and both are above the head. -/
theorem pairwise_insertAscending [TransOrd α] [LawfulEqOrd α] {a : α} {l : List α}
    (h : l.Pairwise fun x y => compare x y = .lt) :
    (insertAscending a l).Pairwise fun x y => compare x y = .lt := by
  induction l with
  | nil => simp [insertAscending]
  | cons b l ih =>
    rw [List.pairwise_cons] at h
    unfold insertAscending
    split
    · next hab =>
      refine List.pairwise_cons.2 ⟨fun c hc => ?_, List.pairwise_cons.2 h⟩
      rcases List.mem_cons.1 hc with rfl | hc
      · exact hab
      · exact TransCmp.lt_trans hab (h.1 c hc)
    · exact List.pairwise_cons.2 h
    · next hab =>
      refine List.pairwise_cons.2 ⟨fun c hc => ?_, ih h.2⟩
      rcases mem_insertAscending.1 hc with rfl | hc
      · exact OrientedCmp.gt_iff_lt.1 hab
      · exact h.1 c hc

end Insertion

/-! ## Uniqueness of ascending lists -/

/-- Two lists that ascend in a strict order and have the same members are the same list.

**Proof sketch.** Each head is a member of the other list, hence not below its head; so the
heads agree. A head does not occur in its own tail, so the tails have the same members too. -/
theorem eq_of_pairwise_of_mem_iff {α : Type u} {r : α → α → Prop} (irrefl : ∀ a, ¬ r a a)
    (trans : ∀ {a b c}, r a b → r b c → r a c) {l m : List α} (hl : l.Pairwise r)
    (hm : m.Pairwise r) (h : ∀ a, a ∈ l ↔ a ∈ m) : l = m := by
  induction l generalizing m with
  | nil =>
    cases m with
    | nil => rfl
    | cons b m => exact absurd ((h b).2 (by simp)) (by simp)
  | cons a l ih =>
    cases m with
    | nil => exact absurd ((h a).1 (by simp)) (by simp)
    | cons b m =>
      rw [List.pairwise_cons] at hl hm
      have hab : a = b := by
        rcases List.mem_cons.1 ((h a).1 (by simp)) with hab | ha
        · exact hab
        · rcases List.mem_cons.1 ((h b).2 (by simp)) with hba | hb
          · exact hba.symm
          · exact absurd (trans (hm.1 a ha) (hl.1 b hb)) (irrefl b)
      subst hab
      congr 1
      refine ih hl.2 hm.2 fun c => ⟨fun hc => ?_, fun hc => ?_⟩
      · rcases List.mem_cons.1 ((h c).1 (List.mem_cons_of_mem _ hc)) with rfl | hc'
        · exact absurd (hl.1 c hc) (irrefl c)
        · exact hc'
      · rcases List.mem_cons.1 ((h c).2 (List.mem_cons_of_mem _ hc)) with rfl | hc'
        · exact absurd (hm.1 c hc) (irrefl c)
        · exact hc'

/-- Nothing is below itself. -/
theorem compare_self_ne_lt {α : Type u} [Ord α] [ReflOrd α] {a : α} : compare a a ≠ .lt := by
  rw [compare_self]
  decide

/-! ## Shrinking selections -/

/-- Selecting fewer members, and at least one less, gives a shorter list. Searches that only ever
mark more members use it as their measure: what is still unmarked shrinks.

**Proof sketch.** Induction on the list. Where the dropped member `a` stands, the other selection
of the rest is no longer and the head is counted on one side only; before it, the heads count the
same on both sides or on the greater one only. -/
theorem length_filter_lt_length_filter {α : Type} {p q : α → Bool} {l : List α}
    (h : ∀ a ∈ l, q a = true → p a = true) {a : α} (ha : a ∈ l) (hp : p a = true)
    (hq : q a = false) : (l.filter q).length < (l.filter p).length := by
  induction l with
  | nil => cases ha
  | cons b l ih =>
    have hle : (l.filter q).length ≤ (l.filter p).length := by
      simpa [List.countP_eq_length_filter] using
        List.countP_mono_left fun c hc => h c (List.mem_cons_of_mem _ hc)
    rcases List.mem_cons.1 ha with rfl | ha
    · simp [hp, hq]
      omega
    · have hlt := ih (fun c hc => h c (List.mem_cons_of_mem _ hc)) ha
      by_cases hb : q b = true
      · simp [hb, h b List.mem_cons_self hb, hlt]
      · by_cases hpb : p b = true
        · simp [hb, hpb]
          omega
        · simp [hb, hpb, hlt]

/-! ## Sets -/

/-- **Finite sets.** The members in strictly ascending order. The order is a field, so that no set
with a repeated or a misplaced member can be built, and equal members mean equal sets. -/
structure SortedSet (α : Type u) [Ord α] where
  /-- The members, from the least to the greatest. -/
  toList : List α
  /-- Each member is below all later ones. -/
  ascending : toList.Pairwise fun x y => compare x y = .lt

namespace SortedSet

variable {α : Type u} {β : Type v} [Ord α] [Ord β]

/-- Sets are compared by their lists of members. -/
instance [DecidableEq α] : DecidableEq (SortedSet α) := fun s t =>
  decidable_of_iff (s.toList = t.toList)
    ⟨fun h => by cases s; cases t; simpa using h, fun h => congrArg toList h⟩

/-- A member of a set is a member of its list. -/
instance : Membership α (SortedSet α) where
  mem s a := a ∈ s.toList

/-- **Membership** in a set is membership in the list of its members. -/
theorem mem_def {a : α} {s : SortedSet α} : a ∈ s ↔ a ∈ s.toList := Iff.rfl

/-- Membership is decided by a walk over the list of members. -/
instance [DecidableEq α] (a : α) (s : SortedSet α) : Decidable (a ∈ s) :=
  inferInstanceAs (Decidable (a ∈ s.toList))

/-- **Extensionality.** Sets with the same members are equal, because an ascending list is
determined by its members (`eq_of_pairwise_of_mem_iff`). -/
theorem ext [TransOrd α] {s t : SortedSet α} (h : ∀ a, a ∈ s ↔ a ∈ t) : s = t := by
  have : s.toList = t.toList := eq_of_pairwise_of_mem_iff (fun _ => compare_self_ne_lt)
    TransCmp.lt_trans s.ascending t.ascending h
  cases s; cases t; simpa using this

/-- A set lists each member once: a member that stood twice would be below itself. -/
theorem nodup_toList [TransOrd α] (s : SortedSet α) : s.toList.Nodup := by
  refine s.ascending.imp fun {a b} h hab => ?_
  subst hab
  exact compare_self_ne_lt h

/-- **The empty set.** -/
def empty : SortedSet α := ⟨[], List.Pairwise.nil⟩

/-- The empty set is written as usual. -/
instance : EmptyCollection (SortedSet α) := ⟨empty⟩

/-- The empty set serves as the default. -/
instance : Inhabited (SortedSet α) := ⟨empty⟩

/-- Nothing is a member of the empty set. -/
@[simp] theorem not_mem_empty {a : α} : ¬ a ∈ (∅ : SortedSet α) := by
  simp [mem_def, EmptyCollection.emptyCollection, empty]

/-- **Emptiness**, read off the list of members. -/
def isEmpty (s : SortedSet α) : Bool := s.toList.isEmpty

/-- **Size.** The number of members. -/
def size (s : SortedSet α) : Nat := s.toList.length

/-- **Counting.** A set has as many members as any list that holds the same ones once each, in
whatever order. This is how sizes are found without putting a list in order first. -/
theorem size_eq_length [TransOrd α] {s : SortedSet α} {l : List α} (hl : l.Nodup)
    (h : ∀ a, a ∈ s ↔ a ∈ l) : s.size = l.length :=
  ((List.perm_ext_iff_of_nodup s.nodup_toList hl).2 h).length_eq

/-- **Selection.** The members that satisfy `p`. -/
def filter (p : α → Bool) (s : SortedSet α) : SortedSet α :=
  ⟨s.toList.filter p, s.ascending.filter p⟩

/-- The members of a selection are the members that satisfy `p`. -/
@[simp] theorem mem_filter {p : α → Bool} {s : SortedSet α} {a : α} :
    a ∈ s.filter p ↔ a ∈ s ∧ p a = true := by
  simp [mem_def, filter]

/-- **The first member found** is below every other one that satisfies `p`. -/
theorem compare_of_find? {p : α → Bool} {s : SortedSet α} {a b : α}
    (h : s.toList.find? p = some a) (hb : b ∈ s) (hp : p b = true) (hne : b ≠ a) :
    compare a b = .lt := by
  obtain ⟨-, before, after, heq, hbefore⟩ := List.find?_eq_some_iff_append.1 h
  have hascending := s.ascending
  rw [heq, List.pairwise_append, List.pairwise_cons] at hascending
  rw [mem_def, heq, List.mem_append, List.mem_cons] at hb
  rcases hb with hb | hb | hb
  · simpa [hp] using hbefore b hb
  · exact absurd hb hne
  · exact hascending.2.1.1 b hb

section Lawful

variable [TransOrd α] [LawfulEqOrd α] [TransOrd β] [LawfulEqOrd β]

/-- **Insertion.** Adds one member; a member that is there already changes nothing. -/
def insert (a : α) (s : SortedSet α) : SortedSet α :=
  ⟨insertAscending a s.toList, pairwise_insertAscending s.ascending⟩

/-- The members after an insertion are the new one and the old ones. -/
@[simp] theorem mem_insert {a b : α} {s : SortedSet α} : b ∈ s.insert a ↔ b = a ∨ b ∈ s :=
  mem_insertAscending

/-- **Union.** The members of `s` are inserted into `t`, one after the other. -/
def union (s t : SortedSet α) : SortedSet α := s.toList.foldr insert t

/-- The members after a series of insertions are those of the list and the old ones. It gives both
`mem_union` and `mem_ofList`. -/
theorem mem_foldr_insert {b : α} {l : List α} {t : SortedSet α} :
    b ∈ l.foldr insert t ↔ b ∈ l ∨ b ∈ t := by
  induction l with
  | nil => simp
  | cons a l ih => simp [ih, or_assoc]

/-- The members of a union are the members of its two parts. -/
@[simp] theorem mem_union {b : α} {s t : SortedSet α} : b ∈ s.union t ↔ b ∈ s ∨ b ∈ t :=
  mem_foldr_insert

/-- **The set of a list's members.** The order of the list and its repetitions are lost. -/
def ofList (l : List α) : SortedSet α := l.foldr insert ∅

/-- The members of the set of a list are the members of the list. -/
@[simp] theorem mem_ofList {b : α} {l : List α} : b ∈ ofList l ↔ b ∈ l := by
  simp [ofList, mem_foldr_insert]

/-- A set is the set of its own members. -/
@[simp] theorem ofList_toList (s : SortedSet α) : ofList s.toList = s :=
  ext fun _ => mem_ofList

/-- **The set with one member.** -/
def singleton (a : α) : SortedSet α := ⟨[a], List.pairwise_singleton _ _⟩

omit [TransOrd α] [LawfulEqOrd α] in
/-- The set with one member has that member only. -/
@[simp] theorem mem_singleton {a b : α} : b ∈ singleton a ↔ b = a := by
  simp [mem_def, singleton]

/-- **Image.** The set of the values of `f`. Values are put in their own order, so that the image
of a set under a function that reverses the order is ascending all the same. -/
def map (f : α → β) (s : SortedSet α) : SortedSet β := ofList (s.toList.map f)

omit [TransOrd α] [LawfulEqOrd α] in
/-- The members of an image are the values at members of the set. -/
@[simp] theorem mem_map {f : α → β} {s : SortedSet α} {b : β} :
    b ∈ s.map f ↔ ∃ a, a ∈ s ∧ f a = b := by
  rw [map, mem_ofList, List.mem_map]
  rfl

omit [TransOrd α] [LawfulEqOrd α] in
/-- The image of an image is the image under both functions in turn. -/
theorem map_map {γ : Type v} [Ord γ] [TransOrd γ] [LawfulEqOrd γ] {f : α → β} {f' : β → γ}
    {s : SortedSet α} : (s.map f).map f' = s.map (f' ∘ f) := by
  refine ext fun c => ?_
  rw [mem_map, mem_map]
  constructor
  · rintro ⟨b, hb, rfl⟩
    obtain ⟨a, ha, rfl⟩ := mem_map.1 hb
    exact ⟨a, ha, rfl⟩
  · rintro ⟨a, ha, rfl⟩
    exact ⟨f a, mem_map.2 ⟨a, ha, rfl⟩, rfl⟩

end Lawful

end SortedSet

end ChomskyForm
