import Mathlib.Algebra.Order.Ring.Nat
import Mathlib.Data.Nat.PSub
import Mathlib.Data.Nat.SuccPred
import Mathlib.Data.Option.Basic
import ChomskyForm.Proofs.Agreement

set_option autoImplicit false
set_option relaxedAutoImplicit false

/-!
# The table of spans in a square

A table of spans can be kept in a square that has the length of the word on both sides and is
filled in place, span by span. Nothing but arithmetic on lengths and positions keeps the reads and
writes inside of the square. Here all of them are checked: a read or a write outside of the square
fails, and so does a subtraction that would go below zero. The checked computation never fails, and
it gives the answer that recognition by a table gives, which is the right one.

## Main definitions

* `ChomskyForm.SpanTable.write?`: a write that fails outside of the table.
* `ChomskyForm.Grammar.squareTable?`, `ChomskyForm.Grammar.squareAccepts?`: the checked computation.
* `ChomskyForm.Grammar.Filled`: the invariant of its loops.

## Main results

* `ChomskyForm.exists_foldlM_range'`: loops that do not fail.
* `ChomskyForm.Grammar.Filled.squareSpan?_eq`: the spans that are computed are those of the table.
* `ChomskyForm.Grammar.exists_squareTable?`: the square is filled without failure.
* `ChomskyForm.Grammar.squareAccepts?_eq`: the checked computation gives the answer of the table.
* `ChomskyForm.Grammar.cykAccepts_exact`: what recognition by a table decides.
-/

namespace ChomskyForm

/-! ## Loops that may fail -/

/-- **A loop does not fail** if no iteration does from a state that has the invariant, and each one
hands the invariant on to the next number.

**Proof sketch.** Induction on the number of iterations, with any first number and any state to
begin with. -/
lemma exists_foldlM_range' {σ : Type} {f : σ → Nat → Option σ} {p : Nat → σ → Prop} {a m : Nat}
    {s : σ}
    (hfirst : p a s)
    (hstep : ∀ k s, a ≤ k → k < a + m → p k s → ∃ s', f s k = some s' ∧ p (k + 1) s') :
    ∃ s', (List.range' a m).foldlM f s = some s' ∧ p (a + m) s' := by
  induction m generalizing a s with
  | zero => exact ⟨s, rfl, hfirst⟩
  | succ m ih =>
    obtain ⟨s', hs', hinv⟩ := hstep a s (Nat.le_refl _) (by omega) hfirst
    obtain ⟨s'', hs'', hinv'⟩ := ih hinv fun k s hk hlt => hstep k s (by omega) (by omega)
    refine ⟨s'', ?_, by rwa [show a + (m + 1) = a + 1 + m by omega]⟩
    rw [List.range'_succ, List.foldlM_cons, hs']
    exact hs''

namespace SpanTable

/-! ## Writes -/

/-- **A write** at the span of length `l + 1` at position `i`. It fails outside of the table. -/
def write? (t : SpanTable) (l i : Nat) (s : SortedSet Name) : Option SpanTable :=
  (t.span? l i).map fun _ => ⟨t.rows.modify l (·.setIfInBounds i s)⟩

/-- **The square** of empty spans, with as many rows as each row has spans. Half of it belongs to
no span of the word. -/
def square (n : Nat) : SpanTable := ⟨Array.replicate n (Array.replicate n ∅)⟩

/-- The square has `n` rows of `n` spans, and a read succeeds exactly inside of it. -/
lemma isSome_span?_square {n l i : Nat} : ((square n).span? l i).isSome = true ↔ l < n ∧ i < n := by
  simp only [square, span?, Array.getElem?_replicate]
  split
  · next hl => simp [hl]
  · next hl => simp [hl]

/-- **A write inside of the table changes the one span.** All other reads, those that fail
included, have the result they had. -/
lemma exists_write? {t : SpanTable} {l i : Nat} (h : (t.span? l i).isSome = true)
    (s : SortedSet Name) :
    ∃ t', t.write? l i s = some t' ∧
      ∀ l' i', t'.span? l' i' = if l' = l ∧ i' = i then some s else t.span? l' i' := by
  obtain ⟨old, hold⟩ := Option.isSome_iff_exists.1 h
  refine ⟨_, by rw [write?, hold]; rfl, fun l' i' => ?_⟩
  obtain ⟨row, hrow, hspan⟩ := Option.bind_eq_some_iff.1 hold
  obtain ⟨hi, -⟩ := Array.getElem?_eq_some_iff.1 hspan
  simp only [span?, Array.getElem?_modify]
  by_cases hl : l' = l
  · subst hl
    by_cases hi' : i' = i
    · subst hi'
      simp [hrow, hi]
    · simp [hrow, hi', Array.getElem?_setIfInBounds_ne (Ne.symm hi')]
  · simp [hl, Ne.symm hl]

end SpanTable

namespace Grammar

variable {g : Grammar} {word : List Name} {t : SpanTable}

/-! ## The checked computation -/

/-- **One cut** of the span of length `len` at position `i`, after `split` letters: the variables
with a pair for the two parts are added to those that were found before. Rows are counted from 0
and lengths from 1, which is where the subtractions come from. -/
def squareCut? (g : Grammar) (t : SpanTable) (len i : Nat) (found : SortedSet Name) (split : Nat) :
    Option (SortedSet Name) := do
  let first ← t.span? (← split.psub 1) i
  let second ← t.span? (← (← len.psub split).psub 1) (i + split)
  return (g.pairSpan first second).foldr .insert found

/-- **One span** of at least two letters: all its cuts in turn. -/
def squareSpan? (g : Grammar) (t : SpanTable) (len i : Nat) : Option (SortedSet Name) :=
  (List.range' 1 (len - 1)).foldlM (g.squareCut? t len i) ∅

/-- **The span of length `len` at position `i`** is computed and written. -/
def fillSpan? (g : Grammar) (len : Nat) (t : SpanTable) (i : Nat) : Option SpanTable := do
  let found ← g.squareSpan? t len i
  t.write? (← len.psub 1) i found

/-- **All spans of one length**, from left to right. -/
def fillRow? (g : Grammar) (word : List Name) (t : SpanTable) (len : Nat) : Option SpanTable := do
  let last ← word.length.psub len
  (List.range' 0 (last + 1)).foldlM (g.fillSpan? len) t

/-- **The span of the letter at position `i`** is written. -/
def fillLetter? (g : Grammar) (word : List Name) (t : SpanTable) (i : Nat) : Option SpanTable := do
  let a ← word[i]?
  t.write? 0 i (g.letterSpan a)

/-- **The square of a word**: its letters, and then the longer spans by their lengths. -/
def squareTable? (g : Grammar) (word : List Name) : Option SpanTable := do
  let t ← (List.range' 0 word.length).foldlM (g.fillLetter? word) (SpanTable.square word.length)
  (List.range' 2 (word.length - 1)).foldlM (g.fillRow? word) t

/-- **Recognition by a square.** It fails if an index is not inside of the square, or a subtraction
goes below zero; an answer is that of recognition by a table. That there is none for a grammar in
another form is not a failure. -/
def squareAccepts? (g : Grammar) (word : List Name) : Option (Option Bool) :=
  if !g.isNormal then some none
  else if word.length = 0 then some (some ([] ∈ g.alternatives g.start))
  else do
    let t ← g.squareTable? word
    let span ← t.span? (← word.length.psub 1) 0
    return some (g.start ∈ span)

/-! ## The invariant -/

/-- **Squares that are being filled.** All reads and writes inside of the square are possible, and
the spans of the word that are done are those of the table. -/
structure Filled (g : Grammar) (word : List Name) (done : Nat → Nat → Prop) (t : SpanTable) :
    Prop where
  /-- The table is a square. -/
  square : ∀ l i, (t.span? l i).isSome = true ↔ l < word.length ∧ i < word.length
  /-- Spans that are done are right. -/
  span : ∀ l i, done l i → i + l < word.length → t.span? l i = (g.spanTable word l).span? l i

/-- **In the beginning nothing is done**, and the square has its size. -/
lemma filled_square (g : Grammar) (word : List Name) :
    Filled g word (fun _ _ => False) (SpanTable.square word.length) where
  square _ _ := SpanTable.isSome_span?_square
  span _ _ h := h.elim

/-- What matters are the spans of the word only: a condition on what is done may be replaced by one
that asks for no more of these. -/
lemma Filled.mono {done done' : Nat → Nat → Prop} (h : Filled g word done t)
    (hdone : ∀ l i, i + l < word.length → done' l i → done l i) : Filled g word done' t where
  square := h.square
  span l i hli hi := h.span l i (hdone l i hi hli) hi

/-- **A write of the right span** does not fail, and one more span is done.

**Proof sketch.** A span of the word is inside of the square. The write changes it and nothing
else, so the square keeps its size and what was done stays done. -/
lemma Filled.exists_write? {done : Nat → Nat → Prop} (h : Filled g word done t) {l i : Nat}
    (hi : i + l < word.length) {s : SortedSet Name} (hs : (g.spanTable word l).span? l i = some s) :
    ∃ t', t.write? l i s = some t' ∧
      Filled g word (fun l' i' => done l' i' ∨ l' = l ∧ i' = i) t' := by
  have hcell : (t.span? l i).isSome = true := (h.square l i).2 ⟨by omega, by omega⟩
  obtain ⟨t', ht', hspan⟩ := SpanTable.exists_write? hcell s
  refine ⟨t', ht', fun l' i' => ?_, fun l' i' hdone hi' => ?_⟩
  · rw [hspan, ← h.square]
    split
    · next heq => simp [heq.1, heq.2, hcell]
    · exact Iff.rfl
  · rw [hspan]
    split
    · next heq => rw [heq.1, heq.2, hs]
    · next hne => exact h.span l' i' (hdone.resolve_right hne) hi'

/-! ## The loops -/

/-- **A cut does not fail** if all shorter spans are done; both parts are inside of the square.

**Proof sketch.** The first part begins where the span does and the second one ends where it does,
so both are spans of the word, and shorter than it. Reads so give what the table has, and none of
the three subtractions goes below zero, as `split` is from 1 to one less than the length. -/
lemma Filled.squareCut?_eq {done : Nat → Nat → Prop} (h : Filled g word done t) {l i k : Nat}
    (hdone : ∀ l' i', l' ≤ l → done l' i') (hi : i + (l + 1) < word.length) (hk : k < l + 1)
    (found : SortedSet Name) :
    g.squareCut? t (l + 2) i found (k + 1) =
      some ((g.cutSpan (g.spanTable word l) l i k).foldr .insert found) := by
  have hi₁ : i + k < word.length := by omega
  have hi₂ : i + k + 1 + (l - k) < word.length := by omega
  obtain ⟨first, hfirst⟩ := exists_span?_spanTable g hi₁
  obtain ⟨second, hsecond⟩ := exists_span?_spanTable g hi₂
  have hread : t.span? k i = some first := by
    rw [h.span k i (hdone k i (by omega)) hi₁, hfirst]
  have hread' : t.span? (l - k) (i + (k + 1)) = some second := by
    rw [h.span _ _ (hdone _ _ (by omega)) (by omega), ← hsecond, Nat.add_assoc]
  -- none of the subtractions goes below zero
  have hindex : (k + 1).psub 1 = some k := Nat.psub_eq_some.2 rfl
  have hrest : (l + 2).psub (k + 1) = some (l - k + 1) := Nat.psub_eq_some.2 (by omega)
  have hindex' : (l - k + 1).psub 1 = some (l - k) := Nat.psub_eq_some.2 rfl
  rw [cutSpan, span?_spanTable_of_le (Nat.le_of_lt_succ hk), span?_spanTable_of_le (Nat.sub_le l k),
    hfirst, hsecond]
  simp only [squareCut?, hindex, hrest, hindex', hread, hread', Option.bind_eq_bind,
    Option.bind_some]
  rfl

/-- **The spans that are computed** are those of the table.

**Proof sketch.** The loop over the cuts keeps that the variables found are those with a pair for
one of the cuts before. After the last cut these are the members of the table's span, and sets with
the same members are equal. -/
lemma Filled.squareSpan?_eq {done : Nat → Nat → Prop} (h : Filled g word done t) {l i : Nat}
    (hdone : ∀ l' i', l' ≤ l → done l' i') (hi : i + (l + 1) < word.length) :
    g.squareSpan? t (l + 2) i = (g.spanTable word (l + 1)).span? (l + 1) i := by
  have hstep : ∀ split found, 1 ≤ split → split < 1 + (l + 1) →
      (∀ v, v ∈ found ↔ ∃ k, k + 1 < split ∧ v ∈ g.cutSpan (g.spanTable word l) l i k) →
      ∃ found', g.squareCut? t (l + 2) i found split = some found' ∧
        ∀ v, v ∈ found' ↔ ∃ k, k + 1 < split + 1 ∧ v ∈ g.cutSpan (g.spanTable word l) l i k := by
    intro split found hfirst hlast hinv
    obtain ⟨k, rfl⟩ : ∃ k, split = k + 1 := ⟨split - 1, by omega⟩
    refine ⟨_, h.squareCut?_eq hdone hi (by omega) found, fun v => ?_⟩
    rw [SortedSet.mem_foldr_insert, hinv]
    constructor
    · rintro (hv | ⟨k', hk', hv⟩)
      · exact ⟨k, Nat.lt_succ_self _, hv⟩
      · exact ⟨k', Nat.lt_succ_of_lt hk', hv⟩
    · rintro ⟨k', hk', hv⟩
      rcases Nat.lt_or_eq_of_le (Nat.le_of_lt_succ hk') with hlt | heq
      · exact .inr ⟨k', hlt, hv⟩
      · obtain rfl : k' = k := Nat.succ.inj heq
        exact .inl hv
  obtain ⟨found, hfound, hmem⟩ := exists_foldlM_range' (s := (∅ : SortedSet Name)) (by simp) hstep
  rw [span?_spanTable_succ hi, squareSpan?, Nat.add_sub_cancel (m := 1), hfound]
  refine congrArg some (SortedSet.ext fun v => ?_)
  rw [hmem, mem_longSpan, Nat.add_comm 1]
  simp only [Nat.add_lt_add_iff_right]

/-- **One letter**: the letters up to a position are done, and the next one is written. -/
lemma Filled.exists_fillLetter? {i : Nat} (h : Filled g word (fun l' i' => l' = 0 ∧ i' < i) t)
    (hi : i < word.length) :
    ∃ t', g.fillLetter? word t i = some t' ∧
      Filled g word (fun l' i' => l' = 0 ∧ i' < i + 1) t' := by
  have hspan : (g.spanTable word 0).span? 0 i = some (g.letterSpan word[i]) := by
    simp [span?_spanTable_zero, hi]
  obtain ⟨t', ht', hfilled⟩ := h.exists_write? hi hspan
  refine ⟨t', by simpa [fillLetter?, hi] using ht', hfilled.mono fun l' i' _ hdone => ?_⟩
  omega

/-- **One span**: all shorter spans are done, and those of one length up to a position; the next
one is computed and written. -/
lemma Filled.exists_fillSpan? {l i : Nat}
    (h : Filled g word (fun l' i' => l' ≤ l ∨ l' = l + 1 ∧ i' < i) t)
    (hi : i + (l + 1) < word.length) :
    ∃ t', g.fillSpan? (l + 2) t i = some t' ∧
      Filled g word (fun l' i' => l' ≤ l ∨ l' = l + 1 ∧ i' < i + 1) t' := by
  obtain ⟨s, hs⟩ := exists_span?_spanTable g hi
  obtain ⟨t', ht', hfilled⟩ := h.exists_write? hi hs
  have hspan : g.squareSpan? t (l + 2) i = some s := by
    rw [h.squareSpan?_eq (fun l' i' hl' => .inl hl') hi, hs]
  have hindex : (l + 2).psub 1 = some (l + 1) := Nat.psub_eq_some.2 rfl
  refine ⟨t', ?_, hfilled.mono fun l' i' _ hdone => ?_⟩
  · simp only [fillSpan?, hspan, hindex, Option.bind_eq_bind, Option.bind_some, ht']
  · omega

/-- **The spans of one length** are written without failure, if all shorter ones are done. After
the last of them, all spans of the word that have this length are done, since none begins later. -/
lemma Filled.exists_fillRow? {l : Nat} (h : Filled g word (fun l' _ => l' ≤ l) t)
    (hl : l + 2 ≤ word.length) :
    ∃ t', g.fillRow? word t (l + 2) = some t' ∧ Filled g word (fun l' _ => l' ≤ l + 1) t' := by
  have hlast : word.length.psub (l + 2) = some (word.length - (l + 2)) := Nat.psub_eq_sub hl
  obtain ⟨t', ht', hfilled⟩ := exists_foldlM_range' (m := word.length - (l + 2) + 1)
    (p := fun i t => Filled g word (fun l' i' => l' ≤ l ∨ l' = l + 1 ∧ i' < i) t)
    (h.mono fun l' i' _ hdone => show l' ≤ l by omega)
    fun i t (_ : 0 ≤ i) hi hfilled => hfilled.exists_fillSpan? (by omega)
  refine ⟨t', ?_, hfilled.mono fun l' i' hi' hl' => ?_⟩
  · rw [fillRow?, hlast]
    exact ht'
  · -- beyond the last position there is no span of this length
    omega

/-- **The square is filled** without failure, with the spans of the table.

**Proof sketch.** The first loop writes the letters, which are the spans of length one. The second
one goes through the lengths from two on, each time with all shorter spans done
(`Filled.exists_fillRow?`), up to the length of the word. -/
lemma exists_squareTable? (g : Grammar) (word : List Name) :
    ∃ t, g.squareTable? word = some t ∧ Filled g word (fun _ _ => True) t := by
  obtain ⟨t, ht, hletters⟩ := exists_foldlM_range' (m := word.length)
    (p := fun i t => Filled g word (fun l' i' => l' = 0 ∧ i' < i) t)
    ((filled_square g word).mono fun l i _ hdone => show False by omega)
    fun i t (_ : 0 ≤ i) hi hfilled => hfilled.exists_fillLetter? (by omega)
  obtain ⟨t', ht', hrows⟩ := exists_foldlM_range' (m := word.length - 1)
    (p := fun len t => Filled g word (fun l' _ => l' + 2 ≤ len) t)
    (hletters.mono fun l i _ (hdone : l + 2 ≤ 2) => show l = 0 ∧ i < 0 + word.length by omega)
    fun len t (hlen : 2 ≤ len) hlast hfilled => by
      obtain ⟨l, rfl⟩ : ∃ l, len = l + 2 := ⟨len - 2, by omega⟩
      have hshorter : Filled g word (fun l' _ => l' ≤ l) t :=
        hfilled.mono fun l' i' _ hl' => by omega
      obtain ⟨t', ht', hfilled'⟩ := hshorter.exists_fillRow? (by omega)
      exact ⟨t', ht', hfilled'.mono fun l' i' _ hl' => by omega⟩
  refine ⟨t', ?_, hrows.mono fun l i hi _ => by omega⟩
  rw [squareTable?, ht]
  exact ht'

/-! ## The answer -/

/-- **The checked computation does not fail**, and gives the answer of recognition by a table.

**Proof sketch.** Both ask for Chomsky normal form and for the empty word in the same way. For
other words the square is filled (`exists_squareTable?`), and its last row begins with the span of
the whole word, as the table's does. -/
theorem squareAccepts?_eq (g : Grammar) (word : List Name) :
    g.squareAccepts? word = some (g.cykAccepts word) := by
  unfold squareAccepts? cykAccepts
  cases hnormal : g.isNormal with
  | false => rfl
  | true =>
    cases hlen : word.length with
    | zero => rfl
    | succ n =>
      obtain ⟨t, ht, hfilled⟩ := exists_squareTable? g word
      have hn : 0 + n < word.length := by omega
      obtain ⟨s, hs⟩ := exists_span?_spanTable g hn
      have hspan : t.span? n 0 = some s := by rw [hfilled.span n 0 trivial hn, hs]
      simp [ht, hs, hspan]

/-- **Recognition by a table is exact** for derivations without empty alternatives. There is an
answer exactly for grammars in Chomsky normal form. For the empty word it says whether the start
symbol has an empty alternative, and for other words whether they can be derived from the start
symbol without using empty alternatives. When the spans are kept in a square, no index that is used
is outside of it, and no subtraction goes below zero.

**Proof sketch.** There is an answer by `exists_cykAccepts`, which says what it means in terms of
generation. Without empty alternatives, and with no mark of the empty word in the others,
generation and derivation agree. The square is the subject of `squareAccepts?_eq`. -/
theorem cykAccepts_exact (g : Grammar) (word : List Name) :
    (g.cykAccepts word = none ↔ g.isNormal = false) ∧
    (g.isNormal = true → ∃ answer, g.cykAccepts word = some answer ∧
      (word = [] → (answer = true ↔ [] ∈ g.alternatives g.start)) ∧
      (word ≠ [] → (answer = true ↔
        g.withoutEmpty.Derives [.nonterminal g.start] (word.map .terminal)))) ∧
    g.squareAccepts? word = some (g.cykAccepts word) := by
  refine ⟨?_, fun hnormal => ?_, squareAccepts?_eq g word⟩
  · cases hnormal : g.isNormal with
    | false => simp [cykAccepts, hnormal]
    | true =>
      obtain ⟨answer, hanswer, -⟩ := exists_cykAccepts hnormal word
      simp [hanswer]
  · obtain ⟨answer, hanswer, hiff⟩ := exists_cykAccepts hnormal word
    -- generation and derivation agree where no alternative has the mark for the empty word
    have hmark : ∀ v, ∀ right ∈ g.withoutEmpty.alternatives v, .epsilon ∉ right := by
      intro v right hr
      cases normalShape_of_isNormal hnormal (mem_alternatives_withoutEmpty.1 hr).1 <;> simp
    refine ⟨answer, hanswer, fun hword => ?_, fun hword => ?_⟩
    · simpa [hword] using hiff
    · rw [hiff, ← generates_iff_derives hmark (by simp)]
      simp [hword]

/-- The word of two letters is derived with an empty alternative only, so it is rejected. -/
example : repeated.toGrammar.squareAccepts? ["a", "a"] = some (some false) := by decide

end Grammar

end ChomskyForm
