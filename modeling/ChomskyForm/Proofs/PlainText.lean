import Mathlib.Algebra.Group.Nat.Defs
import Mathlib.Data.List.Permutation
import Mathlib.Order.MinMax
import ChomskyForm.Proofs.ListedProductions
import ChomskyForm.Proofs.PrefixCode
import ChomskyForm.Proofs.RoundTrip

set_option autoImplicit false
set_option relaxedAutoImplicit false

/-!
# Listings in plain text lose nothing

A listing in plain text can be read back if its names are legible, that is, if they are not empty
and hold neither blanks nor ends of lines. All marks stand in the same columns: a line begins with
a column for the left-hand side, and the mark behind it says whether the line is the first one of a
paragraph. The width of the column is not written down, but it is where the first name of the first
line ends. So it does no harm when a name looks like a mark.

## Main definitions

* `ChomskyForm.Legible`: names that can be told apart in plain text.
* `ChomskyForm.PlainLine`: the lines of a listing.
* `ChomskyForm.PlainLine.text`: how they are set, given the width of the first column.
* `ChomskyForm.collect`: the paragraphs that lines belong to.

## Main results

* `ChomskyForm.Listing.toList_plain`: a listing is set line by line.
* `ChomskyForm.PlainLine.eq_of_text`: different lines are set differently.
* `ChomskyForm.PlainLine.width_eq_of_text`: the width is found again.
* `ChomskyForm.Listing.eq_of_plain`: listings with legible names are read back.
* `ChomskyForm.Grammar.Attainable.alternatives_eq_of_plain`: what two grammars with the same listing
  have in common.
-/

namespace ChomskyForm

/-! ## Names -/

/-- **Legible names** are not empty and hold neither blanks nor ends of lines. They may be arrows
or bars: what a name looks like does not matter. -/
structure Legible (name : Name) : Prop where
  /-- The name has a character. -/
  ne_nil : name.toList ≠ []
  /-- There is no blank in the name. -/
  blank_notMem : ' ' ∉ name.toList
  /-- There is no end of a line in the name. -/
  newline_notMem : '\n' ∉ name.toList

/-- Whether a name is legible is decided by its characters. -/
instance (name : Name) : Decidable (Legible name) :=
  decidable_of_iff (name.toList ≠ [] ∧ ' ' ∉ name.toList ∧ '\n' ∉ name.toList)
    ⟨fun ⟨hne, hblank, hnewline⟩ => ⟨hne, hblank, hnewline⟩,
      fun h => ⟨h.ne_nil, h.blank_notMem, h.newline_notMem⟩⟩

/-- The reserved name is legible. It is what an empty right-hand side shows, so it is read back
along with the other names. -/
lemma legible_epsilonName : Legible epsilonName := ⟨by decide, by decide, by decide⟩

/-- Names with blanks in between, as on a right-hand side. -/
def spaced (names : List Name) : List Char := [' '].intercalate (names.map String.toList)

/-- Legible names are found again between the blanks. -/
lemma eq_of_spaced {names names' : List Name} (hne : names ≠ []) (hne' : names' ≠ [])
    (h : ∀ name ∈ names, Legible name) (h' : ∀ name ∈ names', Legible name)
    (heq : spaced names = spaced names') : names = names' := by
  have hfree : ∀ {ns : List Name}, (∀ name ∈ ns, Legible name) → ∀ cs ∈ ns.map String.toList,
      ' ' ∉ cs := by
    rintro ns hns cs hcs
    obtain ⟨name, hname, rfl⟩ := List.mem_map.1 hcs
    exact (hns name hname).blank_notMem
  have htexts := eq_of_intercalate (s := []) (by simpa using hne) (by simpa using hne')
    List.not_mem_nil (hfree h) (hfree h') heq
  exact List.map_injective_iff.2 (fun _ _ => String.toList_injective) htexts

/-! ## Lines -/

/-- **Lines of a listing.** Only the first line of a paragraph shows its left-hand side; the other
lines begin with blanks in its place. -/
inductive PlainLine where
  /-- The first line of a paragraph. -/
  | first (left : Name) (right : List Name)
  /-- A line with another right-hand side of the same paragraph. -/
  | further (right : List Name)
deriving DecidableEq, Repr

namespace PlainLine

variable {x y : PlainLine} {width : Nat}

/-- The right-hand side on a line, which all lines have. -/
def right : PlainLine → List Name
  | first _ right => right
  | further right => right

/-- The first column of a line. A left-hand side stands at its right end. -/
def column (width : Nat) : PlainLine → List Char
  | first left _ => List.replicate (width - left.length) ' ' ++ left.toList
  | further _ => List.replicate width ' '

/-- The mark behind the first column: an arrow, or a bar for a line with a further right-hand
side. -/
def mark : PlainLine → List Char
  | first _ _ => " -> ".toList
  | further _ => "  | ".toList

/-- **A line of plain text**: the first column, the mark, and the names of the right-hand side. -/
def text (width : Nat) (x : PlainLine) : List Char := x.column width ++ (x.mark ++ spaced x.right)

/-- **Left-hand sides that can be read back** are legible and fit into the first column. A further
line has none, so it always fits. -/
def FitsIn (width : Nat) : PlainLine → Prop
  | first left _ => Legible left ∧ left.length ≤ width
  | further _ => True

/-- **Lines that can be read back.** What they ask for is just what the words of a grammar with
legible names have. -/
structure Readable (width : Nat) (x : PlainLine) : Prop where
  /-- The left-hand side can be read back. -/
  fitsIn : x.FitsIn width
  /-- There is a name on the right-hand side. -/
  right_ne_nil : x.right ≠ []
  /-- The names on the right-hand side are legible. -/
  legible_right : ∀ name ∈ x.right, Legible name

/-- The first column of all lines is equally wide: if a left-hand side fits, blanks make up for the
rest. -/
lemma length_column (hx : x.FitsIn width) : (x.column width).length = width := by
  cases x with
  | first left right =>
    have hle : left.length ≤ width := hx.2
    rw [column, List.length_append, List.length_replicate, String.length_toList]
    omega
  | further right => exact List.length_replicate

/-- All marks are equally long, so the right-hand sides begin in the same place. -/
lemma length_mark (x : PlainLine) : x.mark.length = 4 := by
  cases x <;> simp [mark]

/-- A legible name does not begin with a blank, whatever follows it. So the blanks before a name
can be counted. -/
lemma head?_append_ne_blank {name : Name} (hname : Legible name) (cs : List Char) :
    (name.toList ++ cs).head? ≠ some ' ' := by
  obtain ⟨c, rest, hcons⟩ := List.exists_cons_of_ne_nil hname.ne_nil
  have hblank := hname.blank_notMem
  rw [hcons] at hblank ⊢
  rintro ⟨⟩
  exact hblank List.mem_cons_self

/-- **Different lines are set differently** in columns of the same width.

**Proof sketch.** The texts are cut behind the first column and behind the mark, which stand in the
same places. Lines with different marks are told apart by them. For lines with the same mark the
right-hand sides agree by `eq_of_spaced`, and for first lines the left-hand sides agree, as no name
begins with a blank. -/
lemma eq_of_text (hx : x.Readable width) (hy : y.Readable width)
    (heq : x.text width = y.text width) : x = y := by
  have hlength : (x.column width).length = (y.column width).length := by
    rw [length_column hx.fitsIn, length_column hy.fitsIn]
  obtain ⟨hcolumn, hbehind⟩ := List.append_inj heq hlength
  obtain ⟨hmark, hspaced⟩ :=
    List.append_inj hbehind (x.length_mark.trans y.length_mark.symm)
  have hdiffer : " -> ".toList ≠ "  | ".toList := by decide
  have hright : x.right = y.right :=
    eq_of_spaced hx.right_ne_nil hy.right_ne_nil hx.legible_right hy.legible_right hspaced
  cases x with
  | first left right =>
    cases y with
    | first left' right' =>
      have hnames := eq_of_replicate_append
        (by simpa using head?_append_ne_blank hx.fitsIn.1 [])
        (by simpa using head?_append_ne_blank hy.fitsIn.1 []) hcolumn
      exact congrArg₂ first (String.toList_injective hnames.2) hright
    | further right' => exact absurd hmark hdiffer
  | further right =>
    cases y with
    | first left' right' => exact absurd hmark.symm hdiffer
    | further right' => exact congrArg further hright

/-- **The width of the first column** is found again from a first line: it is where the left-hand
side ends.

**Proof sketch.** The blanks at the beginning can be counted, since no name begins with a blank,
and the name ends before the next blank. The column is as wide as these blanks and the name. -/
lemma width_eq_of_text {width' : Nat} {left left' : Name} {right right' : List Name}
    (hx : (first left right).Readable width) (hy : (first left' right').Readable width')
    (heq : (first left right).text width = (first left' right').text width') : width = width' := by
  simp only [text, column, mark, List.append_assoc] at heq
  obtain ⟨hblanks, hrest⟩ := eq_of_replicate_append (head?_append_ne_blank hx.fitsIn.1 _)
    (head?_append_ne_blank hy.fitsIn.1 _) heq
  have hname : left = left' := String.toList_injective
    (eq_of_append_cons hx.fitsIn.1.blank_notMem hy.fitsIn.1.blank_notMem hrest).1
  subst hname
  have hle : left.length ≤ width := hx.fitsIn.2
  have hle' : left.length ≤ width' := hy.fitsIn.2
  omega

/-- A line does not go on to the next one: neither blanks nor marks nor legible names hold an end
of a line. -/
lemma newline_notMem_text (hx : x.Readable width) : '\n' ∉ x.text width := by
  have hspaced : '\n' ∉ spaced x.right := by
    refine notMem_intercalate (by decide) fun cs hcs => ?_
    obtain ⟨name, hname, rfl⟩ := List.mem_map.1 hcs
    exact (hx.legible_right name hname).newline_notMem
  have hblanks : ∀ n, '\n' ∉ List.replicate n ' ' := fun n hmem =>
    absurd (List.eq_of_mem_replicate hmem) (by decide)
  have harrow : '\n' ∉ " -> ".toList := by decide
  have hbar : '\n' ∉ "  | ".toList := by decide
  rw [text, List.mem_append, List.mem_append, not_or, not_or]
  cases x with
  | first left right =>
    rw [column, List.mem_append, not_or]
    exact ⟨⟨hblanks _, hx.fitsIn.1.newline_notMem⟩, harrow, hspaced⟩
  | further right => exact ⟨hblanks _, hbar, hspaced⟩

/-- A line is not empty. -/
lemma text_ne_nil (x : PlainLine) (width : Nat) : x.text width ≠ [] := by
  cases x <;> simp [text, mark]

end PlainLine

/-! ## Paragraphs -/

/-- **The lines of a paragraph**: one for each right-hand side, of which the first one shows the
left-hand side. -/
def Paragraph.lines (p : Paragraph) : List PlainLine :=
  match p.rights with
  | [] => []
  | right :: rights => .first p.left right :: rights.map .further

/-- A paragraph with right-hand sides has lines, at least the one that shows its left-hand side. -/
lemma Paragraph.lines_ne_nil {p : Paragraph} (hp : p.rights ≠ []) : p.lines ≠ [] := by
  obtain ⟨right, rights, hrights⟩ := List.exists_cons_of_ne_nil hp
  rw [lines, hrights]
  exact List.cons_ne_nil _ _

/-- **The paragraphs that lines belong to**, after the right-hand sides that belong to a paragraph
before. Lines are collected from the end: a further line waits for the first line of its
paragraph. -/
def collect : List PlainLine → List (List Name) × List Paragraph
  | [] => ([], [])
  | .first left right :: lines =>
    let (rights, paragraphs) := collect lines
    ([], ⟨left, right :: rights⟩ :: paragraphs)
  | .further right :: lines =>
    let (rights, paragraphs) := collect lines
    (right :: rights, paragraphs)

/-- Further lines belong to what stands before, together with those that follow them. -/
lemma collect_map_further (rights : List (List Name)) (lines : List PlainLine) :
    collect (rights.map .further ++ lines) =
      (rights ++ (collect lines).1, (collect lines).2) := by
  induction rights with
  | nil => rfl
  | cons right rights ih => rw [List.map_cons, List.cons_append, collect, ih, List.cons_append]

/-- **Paragraphs are found again** in their lines, and no right-hand side is left without a
paragraph. -/
lemma collect_flatMap_lines {ps : List Paragraph} (hps : ∀ p ∈ ps, p.rights ≠ []) :
    collect (ps.flatMap Paragraph.lines) = ([], ps) := by
  induction ps with
  | nil => rfl
  | cons p ps ih =>
    obtain ⟨left, rights⟩ := p
    obtain ⟨right, rights, rfl⟩ :=
      List.exists_cons_of_ne_nil (hps ⟨left, rights⟩ List.mem_cons_self)
    have hrest := ih fun q hq => hps q (List.mem_cons_of_mem _ hq)
    rw [List.flatMap_cons, Paragraph.lines, List.cons_append, collect, collect_map_further, hrest,
      List.append_nil]

/-- **Legible paragraphs** are filled, and all their names are legible. So all their lines can be
read back. -/
structure Paragraph.IsLegible (p : Paragraph) : Prop extends p.Filled where
  /-- The left-hand side is legible. -/
  legible_left : Legible p.left
  /-- The names of the right-hand sides are legible. -/
  legible_rights : ∀ right ∈ p.rights, ∀ name ∈ right, Legible name

/-- The lines of a legible paragraph can be read back in every column that is wide enough for its
left-hand side. -/
lemma Paragraph.IsLegible.readable {p : Paragraph} {width : Nat} (hp : p.IsLegible)
    (hwidth : p.left.length ≤ width) {x : PlainLine} (hx : x ∈ p.lines) : x.Readable width := by
  obtain ⟨left, rights⟩ := p
  obtain ⟨right, rights, rfl⟩ := List.exists_cons_of_ne_nil hp.rights_ne_nil
  have hright : ∀ r ∈ right :: rights, r ≠ [] ∧ ∀ name ∈ r, Legible name :=
    fun r hr => ⟨hp.ne_nil r hr, hp.legible_rights r hr⟩
  rcases List.mem_cons.1 hx with rfl | hx
  · obtain ⟨hne, hlegible⟩ := hright right List.mem_cons_self
    exact ⟨⟨hp.legible_left, hwidth⟩, hne, hlegible⟩
  · obtain ⟨r, hr, rfl⟩ := List.mem_map.1 hx
    obtain ⟨hne, hlegible⟩ := hright r (List.mem_cons_of_mem right hr)
    exact ⟨trivial, hne, hlegible⟩

/-- **A paragraph is set line by line.** Its text is put together from the left-hand side and the
right-hand sides, but it is also the row of its lines, with an end of a line between each two of
them. -/
lemma Paragraph.toList_plain (p : Paragraph) (width : Nat) :
    (p.plain width true).toList = ['\n'].intercalate (p.lines.map (PlainLine.text width)) := by
  obtain ⟨left, rights⟩ := p
  cases rights with
  | nil => rfl
  | cons right rights =>
    have hspaced : ∀ names : List Name, (" ".intercalate names).toList = spaced names :=
      fun _ => String.toList_intercalate
    have hnewline : "\n".toList = ['\n'] := rfl
    simp only [plain, lines, List.map_cons, List.map_map, Function.comp_apply, intercalate_cons,
      List.flatMap_map, String.toList_append, String.toList_join, padLeft, blanks,
      String.toList_ofList, separator, if_true, hspaced, hnewline, PlainLine.text, PlainLine.column,
      PlainLine.mark, PlainLine.right, List.append_assoc]

namespace Listing

variable {l m : Listing}

/-- **The lines of a listing.** -/
def lines (l : Listing) : List PlainLine := l.paragraphs.flatMap Paragraph.lines

/-- **A listing is set line by line.** There is one end of a line between paragraphs, as there is
between the lines of one paragraph, so the lines are one row. -/
theorem toList_plain (hl : ∀ p ∈ l.paragraphs, p.Filled) :
    l.plain.toList = ['\n'].intercalate (l.lines.map (PlainLine.text l.width)) := by
  have hrows : ∀ row ∈ l.paragraphs.map (·.lines.map (PlainLine.text l.width)), row ≠ [] := by
    rintro row hrow
    obtain ⟨p, hp, rfl⟩ := List.mem_map.1 hrow
    exact fun hnil => p.lines_ne_nil (hl p hp).rights_ne_nil (List.map_eq_nil_iff.1 hnil)
  rw [plain, String.toList_intercalate, lines, List.map_flatMap, List.flatMap_def,
    ← intercalate_map_intercalate _ hrows, List.map_map, List.map_map]
  exact congrArg _ (List.map_congr_left fun p _ => p.toList_plain l.width)

/-- Every left-hand side fits into the first column, whose width is the greatest of their
lengths. -/
lemma length_le_width {p : Paragraph} (hp : p ∈ l.paragraphs) : p.left.length ≤ l.width := by
  rw [width, List.foldl_max]
  exact le_max_of_le_right (List.le_max?_getD_of_mem (List.mem_map_of_mem hp))

/-- The lines of a listing with legible paragraphs can be read back, all of them in one column. -/
lemma readable (hl : ∀ p ∈ l.paragraphs, p.IsLegible) : ∀ x ∈ l.lines, x.Readable l.width := by
  intro x hx
  obtain ⟨p, hp, hx⟩ := List.mem_flatMap.1 hx
  exact (hl p hp).readable (length_le_width hp) hx

/-- A listing without lines has an empty text, and no other one has. -/
lemma lines_eq_nil_iff (hl : ∀ p ∈ l.paragraphs, p.Filled) :
    l.lines = [] ↔ l.plain.toList = [] := by
  rw [toList_plain hl]
  cases l.lines with
  | nil => simp
  | cons x lines =>
    rw [List.map_cons, intercalate_cons]
    simp [x.text_ne_nil]

/-- The first line of a listing is the first line of a paragraph, so it shows a left-hand side. -/
lemma exists_first (hl : ∀ p ∈ l.paragraphs, p.Filled) (hlines : l.lines ≠ []) :
    ∃ left right lines, l.lines = .first left right :: lines := by
  unfold lines at hlines ⊢
  cases hparagraphs : l.paragraphs with
  | nil => exact absurd (by rw [hparagraphs, List.flatMap_nil]) hlines
  | cons p ps =>
    obtain ⟨right, rights, hrights⟩ := List.exists_cons_of_ne_nil
      (hl p (hparagraphs ▸ List.mem_cons_self)).rights_ne_nil
    refine ⟨p.left, right, rights.map .further ++ ps.flatMap Paragraph.lines, ?_⟩
    rw [List.flatMap_cons, Paragraph.lines, hrights, List.cons_append]

/-- **Lines are found again.** The first lines show that the first columns are equally wide, and
then each line is found again by itself.

**Proof sketch.** No line holds an end of a line, so the texts of the lines are the same. By the
first of them the widths agree, by `PlainLine.width_eq_of_text`, and in columns of the same width
different lines have different texts. -/
lemma lines_eq_of_plain (hl : ∀ p ∈ l.paragraphs, p.IsLegible)
    (hm : ∀ p ∈ m.paragraphs, p.IsLegible) (heq : l.plain = m.plain) : l.lines = m.lines := by
  have hlfilled : ∀ p ∈ l.paragraphs, p.Filled := fun p hp => (hl p hp).toFilled
  have hmfilled : ∀ p ∈ m.paragraphs, p.Filled := fun p hp => (hm p hp).toFilled
  have hnil : l.lines = [] ↔ m.lines = [] := by
    rw [lines_eq_nil_iff hlfilled, lines_eq_nil_iff hmfilled, heq]
  by_cases hempty : l.lines = []
  · rw [hempty, hnil.1 hempty]
  obtain ⟨left, right, lines, hlfirst⟩ := exists_first hlfilled hempty
  obtain ⟨left', right', lines', hmfirst⟩ := exists_first hmfilled (mt hnil.2 hempty)
  have hfree : ∀ {k : Listing}, (∀ p ∈ k.paragraphs, p.IsLegible) →
      ∀ cs ∈ k.lines.map (PlainLine.text k.width), '\n' ∉ cs := by
    rintro k hk cs hcs
    obtain ⟨x, hx, rfl⟩ := List.mem_map.1 hcs
    exact PlainLine.newline_notMem_text (readable hk x hx)
  have htexts : l.lines.map (PlainLine.text l.width) = m.lines.map (PlainLine.text m.width) := by
    refine eq_of_intercalate (s := []) (by simpa using hempty) (by simpa using mt hnil.2 hempty)
      List.not_mem_nil (hfree hl) (hfree hm) ?_
    rw [List.nil_append, ← toList_plain hlfilled, ← toList_plain hmfilled, heq]
  have hwidth : l.width = m.width := by
    refine PlainLine.width_eq_of_text (readable hl _ (hlfirst ▸ List.mem_cons_self))
      (readable hm _ (hmfirst ▸ List.mem_cons_self)) ?_
    rw [hlfirst, hmfirst] at htexts
    exact (List.cons.inj htexts).1
  rw [hwidth] at htexts
  exact eq_of_map_eq_map (fun x hx y hy => PlainLine.eq_of_text (hwidth ▸ readable hl x hx)
    (readable hm y hy)) htexts

/-- **Listings are read back.** Two listings in which all names are legible are equal if they are
set the same: their lines are the same, and the paragraphs are collected from the lines. -/
theorem eq_of_plain (hl : ∀ p ∈ l.paragraphs, p.IsLegible) (hm : ∀ p ∈ m.paragraphs, p.IsLegible)
    (heq : l.plain = m.plain) : l = m := by
  have hlcollect := collect_flatMap_lines fun p hp => (hl p hp).rights_ne_nil
  have hmcollect := collect_flatMap_lines fun p hp => (hm p hp).rights_ne_nil
  have hparagraphs : l.paragraphs = m.paragraphs := by
    have hlines : l.paragraphs.flatMap Paragraph.lines = m.paragraphs.flatMap Paragraph.lines :=
      lines_eq_of_plain hl hm heq
    rw [hlines, hmcollect] at hlcollect
    exact (Prod.mk.inj hlcollect).2.symm
  cases l
  cases m
  exact congrArg Listing.mk hparagraphs

end Listing

/-! ## Grammars -/

namespace Grammar

variable {g h : Grammar} {v : Name}

/-- **Legible grammars**: all their names are legible, of variables and of terminals. -/
def IsLegible (g : Grammar) : Prop :=
  ∀ name, name ∈ g.nonterminals ∨ name ∈ g.terminals → Legible name

/-- Whether a grammar is legible is decided name by name. -/
instance : Decidable g.IsLegible :=
  decidable_of_iff (∀ name ∈ g.nonterminals.toList ++ g.terminals.toList, Legible name) <| by
    simp only [List.mem_append, IsLegible, SortedSet.mem_def]

/-- The paragraphs of a legible grammar are legible. What they show are declared names and the
reserved name.

**Proof sketch.** A paragraph is that of a variable with alternatives. What it shows on the right
are spellings of alternatives, whose names are declared or reserved, and all of these are
legible. -/
lemma WellFormed.isLegible_of_mem_listing (hg : g.WellFormed) (hlegible : g.IsLegible)
    {p : Paragraph} (hp : p ∈ g.listing.paragraphs) : p.IsLegible := by
  have hfilled := filled_of_mem_listing hp
  rw [paragraphs_listing] at hp
  obtain ⟨v, hv, rfl⟩ := List.mem_map.1 hp
  have hlegibleName : ∀ name, g.toDescription.declares name = true → Legible name := by
    intro name hname
    rcases of_decide_eq_true hname with rfl | hname
    · exact legible_epsilonName
    · exact hlegible name hname
  have hrights : ∀ right ∈ (g.paragraph v).rights, ∀ name ∈ right, Legible name := by
    intro right hright name hname
    obtain ⟨form, hform, rfl⟩ := List.mem_map.1 hright
    exact hlegibleName name (declares_of_mem_spell (hg.declares v form hform) hname)
  obtain ⟨form, hform⟩ := List.exists_mem_of_ne_nil _ (hg.mem_leftSides.1 hv)
  exact ⟨hfilled, hlegible v (.inl (hg.mem_nonterminals hform)), hrights⟩

/-- **Listings in plain text lose nothing** if all names are legible, whatever else they look like:
of two attainable grammars with the same text, every name has the same alternatives, spelled in
names and in the same order, and the variables with alternatives come in the same order.

**Proof sketch.** The listings are equal, since legible listings are read back. What a listing says
about its grammar is known from `listing_eq_iff`. -/
theorem Attainable.alternatives_eq_of_plain (hg : g.Attainable) (hh : h.Attainable)
    (hglegible : g.IsLegible) (hhlegible : h.IsLegible) (heq : g.listing.plain = h.listing.plain) :
    (∀ v, (g.alternatives v).toList.map Symbol.spell = (h.alternatives v).toList.map Symbol.spell) ∧
      g.leftSides = h.leftSides := by
  have hlisting : g.listing = h.listing := Listing.eq_of_plain
    (fun _ => hg.wellFormed.isLegible_of_mem_listing hglegible)
    (fun _ => hh.wellFormed.isLegible_of_mem_listing hhlegible) heq
  exact (listing_eq_iff hg.wellFormed hh.wellFormed).1 hlisting

/-- **Names that look like marks**: words of bars with a letter at the end, with the given
terminals. -/
def barred (terminals : List Name) : Description where
  nonterminals := SortedSet.ofList ["->", "bars"]
  terminals := SortedSet.ofList terminals
  start := "bars"
  productions := SortedMap.ofList
    [("->", SortedSet.ofList [["|"], ["|", "->"]]), ("bars", SortedSet.ofList [["->", "a"], ["a"]])]

/-- A terminal that does not occur anywhere is not listed. So a grammar with this terminal is
different from the one without it, but their listings are the same. They have the same alternatives,
though a bar is a terminal and an arrow is a variable. -/
theorem alternatives_eq_of_plain_barred :
    (barred ["a", "|"]).toGrammar ≠ (barred ["a", "b", "|"]).toGrammar ∧
    (∀ v, ((barred ["a", "|"]).toGrammar.alternatives v).toList.map Symbol.spell =
      ((barred ["a", "b", "|"]).toGrammar.alternatives v).toList.map Symbol.spell) ∧
    (barred ["a", "|"]).toGrammar.leftSides = (barred ["a", "b", "|"]).toGrammar.leftSides := by
  have hne : (barred ["a", "|"]).toGrammar ≠ (barred ["a", "b", "|"]).toGrammar :=
    of_decide_eq_true (by cbv)
  have hfew := attainable_of_ofDescription (d := barred ["a", "|"]) rfl
  have hmore := attainable_of_ofDescription (d := barred ["a", "b", "|"]) rfl
  have hlisting : (barred ["a", "|"]).toGrammar.listing =
      (barred ["a", "b", "|"]).toGrammar.listing := of_decide_eq_true (by cbv)
  exact ⟨hne, Attainable.alternatives_eq_of_plain hfew hmore (of_decide_eq_true (by cbv))
    (of_decide_eq_true (by cbv)) (congrArg Listing.plain hlisting)⟩

end Grammar

end ChomskyForm
