import Mathlib.Data.List.Basic
import Mathlib.Data.List.Infix
import Mathlib.Tactic.Common

set_option autoImplicit false
set_option relaxedAutoImplicit false

/-!
# What can be read back from a row of words

Words that are written one after the other can be told apart if no word begins with another one, or
if what stands between them occurs in none of them.

## Main definitions

* `ChomskyForm.PrefixFree`: codes in which no word begins with another one.

## Main results

* `ChomskyForm.PrefixFree.eq_of_flatMap_append`: words of such a code are read off one by one, up to
  what is no word any more.
* `ChomskyForm.exists_eq_flatMap_append`: words are read off as long as there is one.
* `ChomskyForm.eq_of_intercalate`: words with a separator in between are read off, if the last
  letter of the separator occurs nowhere else.
-/

namespace ChomskyForm

variable {α β : Type}

/-! ## Codes -/

/-- **Prefix-free codes**: no word begins with the word for something else. In particular
different things have different words. -/
def PrefixFree (code : α → List β) : Prop := ∀ a b, code a <+: code b → a = b

namespace PrefixFree

variable {code : α → List β}

/-- What begins with two words begins with one: of two beginnings of the same row, one begins with
the other. -/
lemma eq_of_append (h : PrefixFree code) {a b : α} {r r' : List β}
    (heq : code a ++ r = code b ++ r') : a = b ∧ r = r' := by
  have hab : a = b := by
    rcases List.prefix_or_prefix_of_prefix (List.prefix_append (code a) r)
      (heq ▸ List.prefix_append (code b) r') with hp | hp
    · exact h a b hp
    · exact (h b a hp).symm
  subst hab
  exact ⟨rfl, List.append_cancel_left heq⟩

/-- **Unique reading.** Two rows of words, each followed by something that does not begin with a
word, are the same rows if they are written the same.

**Proof sketch.** The words are taken off from the front one by one, by induction on the first row.
If one row ended before the other, what follows it would begin with a word. -/
theorem eq_of_flatMap_append (h : PrefixFree code) {as bs : List α} {r r' : List β}
    (hr : ∀ a, ¬ code a <+: r) (hr' : ∀ a, ¬ code a <+: r')
    (heq : as.flatMap code ++ r = bs.flatMap code ++ r') : as = bs ∧ r = r' := by
  induction as generalizing bs with
  | nil =>
    cases bs with
    | nil => exact ⟨rfl, heq⟩
    | cons b bs =>
      rw [List.flatMap_nil, List.nil_append, List.flatMap_cons, List.append_assoc] at heq
      exact absurd (heq ▸ List.prefix_append _ _) (hr b)
  | cons a as ih =>
    rw [List.flatMap_cons, List.append_assoc] at heq
    cases bs with
    | nil =>
      rw [List.flatMap_nil, List.nil_append] at heq
      exact absurd (heq ▸ List.prefix_append _ _) (hr' a)
    | cons b bs =>
      rw [List.flatMap_cons, List.append_assoc] at heq
      obtain ⟨rfl, hrest⟩ := h.eq_of_append heq
      obtain ⟨rfl, rfl⟩ := ih hrest
      exact ⟨rfl, rfl⟩

/-- **Unique reading** of rows of words with nothing behind them. No word may be empty, for
otherwise its repetitions could not be counted. -/
theorem eq_of_flatMap (h : PrefixFree code) (hne : ∀ a, code a ≠ []) {as bs : List α}
    (heq : as.flatMap code = bs.flatMap code) : as = bs := by
  have hnil : ∀ a, ¬ code a <+: [] := fun a ha => hne a (List.prefix_nil.1 ha)
  refine (h.eq_of_flatMap_append hnil hnil ?_).1
  rw [heq]

end PrefixFree

/-- **Words are read off** as long as there is one: every row begins with words of a code, and what
follows them does not begin with another one. Each word is taken from a shorter row, so the proof
goes by induction on the length. -/
theorem exists_eq_flatMap_append {code : α → List β} (hne : ∀ a, code a ≠ []) (l : List β) :
    ∃ (as : List α) (r : List β), l = as.flatMap code ++ r ∧ ∀ a, ¬ code a <+: r := by
  induction hn : l.length using Nat.strong_induction_on generalizing l with
  | _ n ih =>
    by_cases hword : ∃ a, code a <+: l
    · obtain ⟨a, tail, rfl⟩ := hword
      have hlt : tail.length < n := by
        have hpos := List.length_pos_of_ne_nil (hne a)
        rw [List.length_append] at hn
        omega
      obtain ⟨as, r, rfl, hr⟩ := ih tail.length hlt tail rfl
      exact ⟨a :: as, r, by rw [List.flatMap_cons, List.append_assoc], hr⟩
    · exact ⟨[], l, rfl, not_exists.1 hword⟩

/-! ## Separators -/

/-- What stands before the first occurrence of a letter is found again, and so is what stands
behind it. -/
lemma eq_of_append_cons {t : β} {l l' r r' : List β} (hl : t ∉ l) (hl' : t ∉ l')
    (heq : l ++ t :: r = l' ++ t :: r') : l = l' ∧ r = r' := by
  induction l generalizing l' with
  | nil =>
    cases l' with
    | nil => exact ⟨rfl, (List.cons.inj heq).2⟩
    | cons b l' => exact absurd ((List.cons.inj heq).1 ▸ List.mem_cons_self) hl'
  | cons a l ih =>
    cases l' with
    | nil => exact absurd ((List.cons.inj heq).1 ▸ List.mem_cons_self) hl
    | cons b l' =>
      obtain ⟨rfl, htail⟩ := List.cons.inj heq
      obtain ⟨rfl, hr⟩ := ih (fun hm => hl (List.mem_cons_of_mem _ hm))
        (fun hm => hl' (List.mem_cons_of_mem _ hm)) htail
      exact ⟨rfl, hr⟩

/-- How often a letter is repeated at the beginning is found again, if something else follows. -/
lemma eq_of_replicate_append {t : β} {m n : Nat} {l l' : List β} (hl : l.head? ≠ some t)
    (hl' : l'.head? ≠ some t) (heq : List.replicate m t ++ l = List.replicate n t ++ l') :
    m = n ∧ l = l' := by
  induction m generalizing n with
  | zero =>
    cases n with
    | zero => exact ⟨rfl, heq⟩
    | succ n =>
      rw [List.replicate_zero, List.nil_append] at heq
      exact absurd (congrArg List.head? heq) hl
  | succ m ih =>
    cases n with
    | zero =>
      rw [List.replicate_zero, List.nil_append] at heq
      exact absurd (congrArg List.head? heq.symm) hl'
    | succ n =>
      rw [List.replicate_succ, List.replicate_succ, List.cons_append, List.cons_append] at heq
      obtain ⟨rfl, hrest⟩ := ih (List.cons.inj heq).2
      exact ⟨rfl, hrest⟩

/-- A row of words begins with the first one, and a separator stands before each of the others. In
this form the row can be taken apart by induction on the words. -/
lemma intercalate_cons (s l : List β) (ls : List (List β)) :
    s.intercalate (l :: ls) = l ++ ls.flatMap (s ++ ·) := by
  induction ls generalizing l with
  | nil => simp
  | cons l' ls ih =>
    rw [List.intercalate_cons_cons, ih, List.flatMap_cons, List.append_assoc, List.append_assoc]

/-- Rows of words that are not empty can be put together to one row. An empty row would leave two
separators side by side.

**Proof sketch.** By induction on the rows: a row is what it begins with and the others, each with
a separator before it, and the next row begins with a word, so that one separator stands between
the two rows. -/
lemma intercalate_map_intercalate (s : List β) {rows : List (List (List β))}
    (hrows : ∀ row ∈ rows, row ≠ []) :
    s.intercalate (rows.map s.intercalate) = s.intercalate rows.flatten := by
  induction rows with
  | nil => rfl
  | cons row rows ih =>
    have hrest := ih fun r hr => hrows r (List.mem_cons_of_mem row hr)
    obtain ⟨l, ls, rfl⟩ := List.exists_cons_of_ne_nil (hrows _ List.mem_cons_self)
    cases rows with
    | nil => simp
    | cons row' rows =>
      obtain ⟨l', ls', rfl⟩ := List.exists_cons_of_ne_nil
        (hrows _ (List.mem_cons_of_mem _ List.mem_cons_self))
      rw [List.map_cons, List.map_cons, List.intercalate_cons_cons, ← List.map_cons, hrest]
      simp only [List.flatten_cons, List.cons_append, intercalate_cons, List.flatMap_append,
        List.flatMap_cons, List.append_assoc]

/-- A separator without its last letter at the end makes all words end the same way: what stands
between the last letters of separators is a word and the other letters. -/
lemma intercalate_append (s : List β) (t : β) {ls : List (List β)} (hls : ls ≠ []) :
    (s ++ [t]).intercalate ls ++ s = [t].intercalate (ls.map (· ++ s)) := by
  obtain ⟨l, ls, rfl⟩ := List.exists_cons_of_ne_nil hls
  clear hls
  induction ls generalizing l with
  | nil => simp
  | cons l' ls ih =>
    rw [List.intercalate_cons_cons, List.append_assoc, ih]
    simp only [List.map_cons, List.intercalate_cons_cons, List.append_assoc]

/-- What occurs neither in the separator nor in a word does not occur in the row. -/
lemma notMem_intercalate {s : List β} {t : β} {ls : List (List β)} (hs : t ∉ s)
    (hls : ∀ l ∈ ls, t ∉ l) : t ∉ s.intercalate ls := by
  cases ls with
  | nil => exact List.not_mem_nil
  | cons l ls =>
    rw [intercalate_cons, List.mem_append, List.mem_flatMap]
    rintro (hmem | ⟨m, hm, hmem⟩)
    · exact hls l List.mem_cons_self hmem
    · exact (List.mem_append.1 hmem).elim hs (hls m (List.mem_cons_of_mem l hm))

/-- **Separated words are told apart** if the last letter of the separator occurs nowhere else,
neither in a word nor in the separator itself.

**Proof sketch.** By `intercalate_append` the other letters of the separator are moved to the
words. The row is then split at its last letter, and a common ending is taken off from all parts. -/
theorem eq_of_intercalate {s : List β} {t : β} {ls ls' : List (List β)} (hls : ls ≠ [])
    (hls' : ls' ≠ []) (hs : t ∉ s) (ht : ∀ l ∈ ls, t ∉ l) (ht' : ∀ l ∈ ls', t ∉ l)
    (heq : (s ++ [t]).intercalate ls = (s ++ [t]).intercalate ls') : ls = ls' := by
  classical
  have hfree : ∀ {ms : List (List β)}, (∀ l ∈ ms, t ∉ l) → ∀ l ∈ ms.map (· ++ s), t ∉ l := by
    rintro ms hms l hl
    obtain ⟨m, hm, rfl⟩ := List.mem_map.1 hl
    exact fun hmem => (List.mem_append.1 hmem).elim (hms m hm) hs
  have hsplit : ls.map (· ++ s) = ls'.map (· ++ s) := by
    rw [← List.splitOn_intercalate t (hfree ht) (by simpa using hls), ← intercalate_append s t hls,
      heq,
      intercalate_append s t hls', List.splitOn_intercalate t (hfree ht') (by simpa using hls')]
  exact List.map_injective_iff.2 (List.append_left_injective s) hsplit

/-- A code is applied to separated words one by one, and to the separator as well. -/
lemma flatMap_intercalate (code : α → List β) (s : List α) (ls : List (List α)) :
    (s.intercalate ls).flatMap code = (s.flatMap code).intercalate (ls.map (·.flatMap code)) := by
  cases ls with
  | nil => rfl
  | cons l ls =>
    simp only [List.map_cons, intercalate_cons, List.flatMap_append, List.flatMap_assoc,
      List.flatMap_map]

/-- Lists are equal if they have the same images under a function that is injective on them. The
function need not be injective on anything else. -/
lemma eq_of_map_eq_map {f : α → β} {as bs : List α}
    (hinj : ∀ a ∈ as, ∀ b ∈ bs, f a = f b → a = b) (heq : as.map f = bs.map f) : as = bs := by
  induction as generalizing bs with
  | nil => exact (List.map_eq_nil_iff.1 heq.symm).symm
  | cons a as ih =>
    obtain ⟨b, bs, rfl, hb, hbs⟩ := List.map_eq_cons_iff.1 heq.symm
    have hab : a = b := hinj a List.mem_cons_self b List.mem_cons_self hb.symm
    have hrest := ih (fun x hx y hy => hinj x (List.mem_cons_of_mem a hx) y
      (List.mem_cons_of_mem b hy)) hbs.symm
    rw [hab, hrest]

end ChomskyForm
