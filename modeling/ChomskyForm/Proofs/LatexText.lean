import Mathlib.Data.List.Permutation
import ChomskyForm.Proofs.ListedProductions
import ChomskyForm.Proofs.PrefixCode
import ChomskyForm.Proofs.StageOrder

set_option autoImplicit false
set_option relaxedAutoImplicit false

/-!
# Listings in LaTeX lose nothing

A listing that is set in LaTeX can be read back, whatever characters its names consist of. The text
is a row of pieces: letters, the empty groups between hyphens, and what stands between symbols,
alternatives and lines. No piece begins with another one, so the pieces are found again; the
separators among them do not occur in names, so the names are found again.

## Main definitions

* `ChomskyForm.Latex.Piece`: the pieces of a text in LaTeX.
* `ChomskyForm.Latex.Piece.text`: how they are written.
* `ChomskyForm.Paragraph.pieces`, `ChomskyForm.Listing.pieces`: the pieces of a listing.

## Main results

* `ChomskyForm.Latex.prefixFree_text`: no piece begins with another one.
* `ChomskyForm.Listing.toList_latex`: a listing is written piece by piece.
* `ChomskyForm.Listing.eq_of_latex`: listings in which nothing is empty are read back.
* `ChomskyForm.Grammar.Attainable.latex_exact`: what two grammars with the same text have in common.
-/

namespace ChomskyForm

namespace Latex

/-! ## Pieces -/

/-- **Pieces of a text in LaTeX.** The blank before a separator is a letter like any other. -/
inductive Piece where
  /-- A letter of a name, or the blank before a separator. -/
  | letter (c : Char)
  /-- The empty group between two hyphens. -/
  | group
  /-- What follows the blank between two symbols. -/
  | nextSymbol
  /-- What follows the blank between two alternatives. -/
  | nextAlternative
  /-- What follows the blank behind a left-hand side. -/
  | arrow
  /-- What stands between two lines. -/
  | nextLine
  /-- The first line. -/
  | opening
  /-- The last line. -/
  | closing
deriving DecidableEq, Repr

/-- A character, or the command for the mark, as in `markEpsilon`. -/
def markChar (c : Char) : List Char := if c = 'ε' then "\\epsilon".toList else [c]

/-- **How pieces are written.** A letter is escaped first, and then the mark, if that is what the
letter is, becomes a command. All other pieces are written in one way only. -/
def Piece.text : Piece → List Char
  | letter c => (escapeChar c).flatMap markChar
  | group => "\x7b\x7d".toList
  | nextSymbol => "\\ ".toList
  | nextAlternative => "\\mid ".toList
  | arrow => "& \\rightarrow &".toList
  | nextLine => "\\\\\n".toList
  | opening => "\\[\\begin\x7barray\x7d\x7bcll\x7d".toList
  | closing => "\\end\x7barray\x7d\\]".toList

/-- The characters that are not written as themselves. -/
def specialChars : List Char :=
  ['&', '%', '$', '#', '_', '\x7b', '\x7d', '[', ']', '~', '^', '<', '>', '!', '\\', 'ε']

/-- The pieces that do not consist of a letter written as itself. There are finitely many of
them. -/
def specialPieces : List Piece :=
  specialChars.map .letter ++
    [.group, .nextSymbol, .nextAlternative, .arrow, .nextLine, .opening, .closing]

/-- All other characters are written as themselves. -/
lemma text_letter {c : Char} (hc : c ∉ specialChars) : (Piece.letter c).text = [c] := by
  have hescape : escapeChar c = [c] := by
    fun_cases escapeChar c with
    | case16 => rfl
    | _ => exact absurd (by decide) hc
  have hmark : c ≠ 'ε' := fun hε => hc (hε ▸ by decide)
  calc (Piece.letter c).text
    _ = (escapeChar c).flatMap markChar := rfl
    _ = [c] := by rw [hescape, List.flatMap_singleton, markChar, if_neg hmark]

/-- A piece that is not special is a letter written as itself. -/
lemma exists_letter {p : Piece} (hp : p ∉ specialPieces) : ∃ c ∉ specialChars, p = .letter c := by
  cases p with
  | letter c => exact ⟨c, fun hc => hp (List.mem_append_left _ (List.mem_map_of_mem hc)), rfl⟩
  | _ => exact absurd (by decide) hp

/-- **How a piece begins.** Every piece begins with a character that is special if and only if the
piece is. So pieces are not empty, and the first character tells which kind of piece it is. -/
lemma exists_text_eq_cons (p : Piece) :
    ∃ c r, p.text = c :: r ∧ (c ∈ specialChars ↔ p ∈ specialPieces) := by
  by_cases hp : p ∈ specialPieces
  · have hany : ∀ p ∈ specialPieces, p.text.head?.any (· ∈ specialChars) = true := by decide +kernel
    obtain ⟨c, hhead, hc⟩ := (Option.any_eq_true _ _).1 (hany p hp)
    obtain ⟨r, htext⟩ := List.head?_eq_some_iff.1 hhead
    exact ⟨c, r, htext, iff_of_true (of_decide_eq_true hc) hp⟩
  · obtain ⟨c, hc, rfl⟩ := exists_letter hp
    exact ⟨c, [], text_letter hc, iff_of_false hc hp⟩

/-- No special piece begins with another one. They are compared with each other, all of them. -/
lemma prefix_specialPieces :
    ∀ p ∈ specialPieces, ∀ q ∈ specialPieces, p.text <+: q.text → p = q := by
  decide +kernel

/-- **No piece begins with another one.**

**Proof sketch.** Two pieces that begin with the same character are both special or both letters
written as themselves. There are only finitely many special pieces, so they can be compared. -/
theorem prefixFree_text : PrefixFree Piece.text := by
  intro p q hpq
  obtain ⟨c, r, hp, hpspecial⟩ := exists_text_eq_cons p
  obtain ⟨d, s, hq, hqspecial⟩ := exists_text_eq_cons q
  obtain rfl : c = d := by
    rw [hp, hq, List.cons_prefix_cons] at hpq
    exact hpq.1
  by_cases hc : c ∈ specialChars
  · exact prefix_specialPieces p (hpspecial.1 hc) q (hqspecial.1 hc) hpq
  · obtain ⟨a, ha, rfl⟩ := exists_letter (mt hpspecial.2 hc)
    obtain ⟨b, hb, rfl⟩ := exists_letter (mt hqspecial.2 hc)
    rw [text_letter ha, text_letter hb, List.cons_prefix_cons] at hpq
    rw [hpq.1]

/-- Pieces are not empty. -/
lemma text_ne_nil (p : Piece) : p.text ≠ [] := by
  obtain ⟨c, r, htext, -⟩ := exists_text_eq_cons p
  rw [htext]
  exact List.cons_ne_nil c r

/-! ## Names -/

/-- **The pieces of a name**: its letters, with an empty group between two hyphens. -/
def namePieces : List Char → List Piece
  | [] => []
  | c :: rest =>
    if c = '-' ∧ rest.head? = some '-' then .letter c :: .group :: namePieces rest
    else .letter c :: namePieces rest

/-- **A name is escaped piece by piece.** Both recursions look one character ahead for a second
hyphen, and take the same branch. -/
lemma flatMap_text_namePieces (cs : List Char) :
    (namePieces cs).flatMap Piece.text = (escapeChars cs).flatMap markChar := by
  induction cs with
  | nil => rfl
  | cons c rest ih =>
    rw [namePieces, escapeChars, List.flatMap_append, ← ih]
    by_cases hdash : c = '-' ∧ rest.head? = some '-'
    · rw [if_pos hdash, if_pos hdash, hdash.1]
      rfl
    · rw [if_neg hdash, if_neg hdash]
      rfl

/-- The letter that a piece is, if it is one. -/
def Piece.letter? : Piece → Option Char
  | letter c => some c
  | _ => none

/-- The letters among the pieces of a name make up the name: the empty groups carry nothing. -/
lemma filterMap_letter?_namePieces (cs : List Char) :
    (namePieces cs).filterMap Piece.letter? = cs := by
  induction cs with
  | nil => rfl
  | cons c rest ih =>
    rw [namePieces]
    split <;> simp only [List.filterMap_cons, Piece.letter?, ih]

/-- **Different names have different pieces**, since the name can be had back from its pieces. -/
lemma namePieces_injective : Function.Injective fun name : Name => namePieces name.toList := by
  intro name name' heq
  have hletters := congrArg (List.filterMap Piece.letter?) heq
  simpa only [filterMap_letter?_namePieces, String.toList_inj] using hletters

/-- **Pieces of names**: letters and groups. -/
def Piece.IsNamePiece : Piece → Prop
  | letter _ => True
  | group => True
  | _ => False

/-- There are no others in a name: no separator is a piece of a name, whatever its characters
are. -/
lemma isNamePiece_of_mem {cs : List Char} {p : Piece} (hp : p ∈ namePieces cs) : p.IsNamePiece := by
  induction cs with
  | nil => cases hp
  | cons c rest ih =>
    rw [namePieces] at hp
    split at hp
    · rcases List.mem_cons.1 hp with rfl | hp
      · trivial
      rcases List.mem_cons.1 hp with rfl | hp
      · trivial
      · exact ih hp
    · rcases List.mem_cons.1 hp with rfl | hp
      · trivial
      · exact ih hp

/-- **The pieces of a right-hand side**: those of its names, with a blank and the rest of the
separator between them. -/
def rightPieces (right : List Name) : List Piece :=
  [.letter ' ', .nextSymbol].intercalate (right.map fun name => namePieces name.toList)

/-- A right-hand side is written piece by piece, as its names are. -/
lemma flatMap_text_rightPieces (right : List Name) :
    (rightPieces right).flatMap Piece.text =
      (" \\ ".intercalate (right.map escape)).toList.flatMap markChar := by
  have hseparator : [.letter ' ', .nextSymbol].flatMap Piece.text =
      " \\ ".toList.flatMap markChar := by decide +kernel
  rw [rightPieces, flatMap_intercalate, String.toList_intercalate, flatMap_intercalate, hseparator,
    List.map_map, List.map_map, List.map_map]
  refine congrArg _ (List.map_congr_left fun name _ => ?_)
  simp only [Function.comp_apply, flatMap_text_namePieces, escape, String.toList_ofList]

/-- **Different right-hand sides that are not empty have different pieces.**

**Proof sketch.** What stands between symbols does not occur in the pieces of a name, so the pieces
are cut at the same places (`eq_of_intercalate`), and each part gives its name. -/
lemma eq_of_rightPieces {right right' : List Name} (hright : right ≠ []) (hright' : right' ≠ [])
    (heq : rightPieces right = rightPieces right') : right = right' := by
  have hfree : ∀ names : List Name,
      ∀ ps ∈ names.map fun name => namePieces name.toList, Piece.nextSymbol ∉ ps := by
    rintro names ps hps hmem
    obtain ⟨name, -, rfl⟩ := List.mem_map.1 hps
    exact isNamePiece_of_mem hmem
  have hnames := eq_of_intercalate (s := [Piece.letter ' ']) (by simpa using hright)
    (by simpa using hright') (by decide) (hfree right) (hfree right') heq
  exact List.map_injective_iff.2 namePieces_injective hnames

/-- In right-hand sides there are only pieces of names and what stands between symbols. -/
lemma mem_rightPieces {right : List Name} {p : Piece} (hp : p ∈ rightPieces right) :
    p.IsNamePiece ∨ p = .nextSymbol := by
  by_contra hno
  obtain ⟨hname, hsymbol⟩ := not_or.1 hno
  refine notMem_intercalate (fun hmem => ?_) (fun ps hps hmem => ?_) hp
  · rcases List.mem_pair.1 hmem with rfl | rfl
    · exact hname trivial
    · exact hsymbol rfl
  · obtain ⟨name, -, rfl⟩ := List.mem_map.1 hps
    exact hname (isNamePiece_of_mem hmem)

end Latex

/-! ## Paragraphs -/

open Latex

namespace Paragraph

variable {p q : Paragraph}

/-- The pieces of the right-hand sides of a paragraph, with a blank and the rest of the separator
between them. -/
def rightsPieces (p : Paragraph) : List Piece :=
  [.letter ' ', .nextAlternative].intercalate (p.rights.map rightPieces)

/-- **The pieces of a paragraph**: its left-hand side, the arrow and the right-hand sides. -/
def pieces (p : Paragraph) : List Piece :=
  namePieces p.left.toList ++ [.letter ' ', .arrow] ++ p.rightsPieces

/-- The right-hand sides of a paragraph are written piece by piece. -/
lemma flatMap_text_rightsPieces (p : Paragraph) :
    p.rightsPieces.flatMap Piece.text =
      (" \\mid ".intercalate (p.rights.map fun right =>
        " \\ ".intercalate (right.map escape))).toList.flatMap markChar := by
  have hseparator : [.letter ' ', .nextAlternative].flatMap Piece.text =
      " \\mid ".toList.flatMap markChar := by decide +kernel
  rw [rightsPieces, flatMap_intercalate, String.toList_intercalate, flatMap_intercalate, hseparator,
    List.map_map, List.map_map, List.map_map]
  exact congrArg _ (List.map_congr_left fun right _ => flatMap_text_rightPieces right)

/-- **A paragraph is written piece by piece.** The mark becomes a command after the names have been
escaped; for the arrow and the separators, which hold no mark, this changes nothing. -/
lemma toList_latex (hp : p.rights ≠ []) :
    (p.latex true).toList = p.pieces.flatMap Piece.text := by
  have hrights : p.rights.isEmpty = false := List.isEmpty_eq_false_iff.2 hp
  have harrow : [.letter ' ', .arrow].flatMap Piece.text =
      " & \\rightarrow &".toList.flatMap markChar := by decide +kernel
  rw [pieces, List.flatMap_append, List.flatMap_append, flatMap_text_namePieces, harrow,
    flatMap_text_rightsPieces, latex, hrights]
  simp only [Bool.false_eq_true, if_false, if_true, markEpsilon, escape, String.toList_ofList,
    String.toList_append, List.flatMap_append]
  rfl

/-- In the right-hand sides of a paragraph there are only pieces of names and what stands between
symbols and alternatives: neither an arrow nor the end of a line. -/
lemma mem_rightsPieces {x : Piece} (hx : x ∈ p.rightsPieces) :
    x.IsNamePiece ∨ x = .nextSymbol ∨ x = .nextAlternative := by
  by_contra hno
  obtain ⟨hname, hsymbol, halternative⟩ := not_or.1 hno |>.imp_right not_or.1
  refine notMem_intercalate (fun hmem => ?_) (fun ps hps hmem => ?_) hx
  · rcases List.mem_pair.1 hmem with rfl | rfl
    · exact hname trivial
    · exact halternative rfl
  · obtain ⟨right, -, rfl⟩ := List.mem_map.1 hps
    exact (mem_rightPieces hmem).elim hname hsymbol

/-- **Different right-hand sides of filled paragraphs have different pieces.** What stands between
alternatives does not occur in a right-hand side, so they are told apart (`eq_of_rightPieces`). -/
lemma eq_of_rightsPieces (hp : p.Filled) (hq : q.Filled) (heq : p.rightsPieces = q.rightsPieces) :
    p.rights = q.rights := by
  have hfree : ∀ rights : List (List Name),
      ∀ ps ∈ rights.map rightPieces, Piece.nextAlternative ∉ ps := by
    rintro rights ps hps hmem
    obtain ⟨right, -, rfl⟩ := List.mem_map.1 hps
    exact (mem_rightPieces hmem).elim id Piece.noConfusion
  have hrights := eq_of_intercalate (s := [Piece.letter ' ']) (by simpa using hp.rights_ne_nil)
    (by simpa using hq.rights_ne_nil) (by decide) (hfree p.rights) (hfree q.rights) heq
  exact eq_of_map_eq_map (fun right hright right' hright' =>
    eq_of_rightPieces (hp.ne_nil right hright) (hq.ne_nil right' hright')) hrights

/-- **Different filled paragraphs have different pieces.**

**Proof sketch.** There is no arrow in a name, so what stands before the first arrow and behind it
is found again. The former gives the left-hand side, the latter the right-hand sides. -/
lemma eq_of_pieces (hp : p.Filled) (hq : q.Filled) (heq : p.pieces = q.pieces) : p = q := by
  have hleft : ∀ name : Name, Piece.arrow ∉ namePieces name.toList ++ [.letter ' '] := by
    intro name hmem
    rcases List.mem_append.1 hmem with hmem | hmem
    · exact isNamePiece_of_mem hmem
    · simp at hmem
  have hsplit : ∀ r : Paragraph, r.pieces =
      (namePieces r.left.toList ++ [.letter ' ']) ++ .arrow :: r.rightsPieces := fun r => by
    simp [pieces]
  rw [hsplit, hsplit] at heq
  obtain ⟨hname, hrights⟩ := eq_of_append_cons (hleft p.left) (hleft q.left) heq
  have hleft : p.left = q.left := namePieces_injective (List.append_cancel_right hname)
  have hrights : p.rights = q.rights := eq_of_rightsPieces hp hq hrights
  cases p
  cases q
  exact congrArg₂ Paragraph.mk hleft hrights

/-- The pieces of a paragraph belong to one line, so the lines of a listing are found again. -/
lemma nextLine_notMem_pieces (p : Paragraph) : Piece.nextLine ∉ p.pieces := by
  intro hmem
  rcases List.mem_append.1 hmem with hmem | hmem
  · rcases List.mem_append.1 hmem with hmem | hmem
    · exact isNamePiece_of_mem hmem
    · simp at hmem
  · exact (mem_rightsPieces hmem).elim id fun h => h.elim Piece.noConfusion Piece.noConfusion

end Paragraph

/-! ## Listings -/

namespace Listing

/-- **The pieces of a listing**: the opening, its paragraphs and the closing, one line each. -/
def pieces (l : Listing) : List Piece :=
  [.nextLine].intercalate ([.opening] :: l.paragraphs.map Paragraph.pieces ++ [[.closing]])

/-- **A listing is written piece by piece**, if nothing in it is empty. -/
theorem toList_latex {l : Listing} (hl : ∀ p ∈ l.paragraphs, p.Filled) :
    l.latex.toList = l.pieces.flatMap Piece.text := by
  have hlines : l.paragraphs.map (fun p => (p.latex true).toList) =
      l.paragraphs.map (·.pieces.flatMap Piece.text) :=
    List.map_congr_left fun p hp => p.toList_latex (hl p hp).rights_ne_nil
  rw [pieces, flatMap_intercalate, latex, String.toList_intercalate]
  simp only [List.map_cons, List.map_append, List.map_map, List.map_nil, Function.comp_def, hlines]
  rfl

/-- **Listings are read back.** Two listings in which nothing is empty are equal if they are set
the same.

**Proof sketch.** The same text has the same pieces, because no piece begins with another one
(`prefixFree_text`). Cut at the ends of lines, which occur in no line, the pieces give the lines;
and the first and the last line apart, each of them gives its paragraph (`eq_of_pieces`). -/
theorem eq_of_latex {l m : Listing} (hl : ∀ p ∈ l.paragraphs, p.Filled)
    (hm : ∀ p ∈ m.paragraphs, p.Filled) (heq : l.latex = m.latex) : l = m := by
  have hpieces : l.pieces = m.pieces := by
    refine prefixFree_text.eq_of_flatMap text_ne_nil ?_
    rw [← toList_latex hl, ← toList_latex hm, heq]
  have hfree : ∀ k : Listing,
      ∀ line ∈ [.opening] :: k.paragraphs.map Paragraph.pieces ++ [[.closing]],
      Piece.nextLine ∉ line := by
    intro k line hline
    simp only [List.cons_append, List.mem_cons, List.mem_append, List.mem_map, List.not_mem_nil,
      or_false] at hline
    rcases hline with rfl | ⟨p, -, rfl⟩ | rfl
    · decide
    · exact p.nextLine_notMem_pieces
    · decide
  have hlines := eq_of_intercalate (s := []) (List.cons_ne_nil _ _) (List.cons_ne_nil _ _)
    List.not_mem_nil (hfree l) (hfree m) hpieces
  have hparagraphs := List.append_cancel_right (List.cons.inj hlines).2
  cases l
  cases m
  exact congrArg Listing.mk (eq_of_map_eq_map (fun p hp q hq =>
    Paragraph.eq_of_pieces (hl p hp) (hm q hq)) hparagraphs)

end Listing

/-! ## Grammars -/

namespace Grammar

/-- **Listings in LaTeX lose nothing**, whatever characters the names consist of. Two attainable
grammars have the same text if and only if every variable has the same alternatives, spelled in
names and in the same order, and the variables with alternatives come in the same order. If the
start symbols of both have alternatives, they are the same; a start symbol without alternatives is
not in the text.

**Proof sketch.** The listings are equal, since a listing in which nothing is empty is read back
piece by piece (`Listing.eq_of_latex`). What a listing tells about its grammar is known from
`listing_eq_iff`. Conversely, grammars that agree in this have the same listing, and so the same
text. -/
theorem Attainable.latex_exact {g h : Grammar} (hg : g.Attainable) (hh : h.Attainable) :
    (g.listing.latex = h.listing.latex ↔
      (∀ v, (g.alternatives v).toList.map Symbol.spell =
        (h.alternatives v).toList.map Symbol.spell) ∧
        g.leftSides = h.leftSides) ∧
    (g.listing.latex = h.listing.latex → g.start ∈ g.leftSides → h.start ∈ h.leftSides →
      g.start = h.start) := by
  have hread : g.listing.latex = h.listing.latex → g.listing = h.listing :=
    Listing.eq_of_latex (fun _ => filled_of_mem_listing) fun _ => filled_of_mem_listing
  have hsame := listing_eq_iff hg.wellFormed hh.wellFormed
  refine ⟨⟨fun heq => hsame.1 (hread heq), fun hagree => ?_⟩, fun heq => ?_⟩
  · rw [hsame.2 hagree]
  · exact start_eq_of_leftSides (hsame.1 (hread heq)).2

/-- **A start symbol that derives no word**, and another variable `A` with a single letter as its
alternative. -/
def lettered (start letter : Name) : Description where
  nonterminals := SortedSet.ofList ["A", start]
  terminals := SortedSet.singleton letter
  start := start
  productions := SortedMap.ofList
    [("A", SortedSet.ofList [[letter]]), (start, SortedSet.ofList [[letter, start]])]

/-- An empty group between two hyphens can be told from a group in a name, though what is written
for either begins and ends in the same way: the text for the letter `--` is not that for `-{}-`.
When the variables that derive no word are removed, `S` and `T` have no alternatives left. Then the
grammars have the same text, and the same alternatives, but their start symbols are different. -/
theorem latex_exact_lettered :
    (lettered "S" "--").toGrammar.listing.latex ≠
      (lettered "S" "-\x7b\x7d-").toGrammar.listing.latex ∧
    (let g := (lettered "S" "a").toGrammar.pruneUnproductive
     let h := (lettered "T" "a").toGrammar.pruneUnproductive
     g.listing.latex = h.listing.latex ∧ g.leftSides = h.leftSides ∧ g.start ≠ h.start) := by
  have hhyphens := attainable_of_ofDescription (d := lettered "S" "--") rfl
  have hgroup := attainable_of_ofDescription (d := lettered "S" "-\x7b\x7d-") rfl
  have hS := (attainable_of_ofDescription (d := lettered "S" "a") rfl).run [.pruneUnproductive]
  have hT := (attainable_of_ofDescription (d := lettered "T" "a") rfl).run [.pruneUnproductive]
  have hlisting : (lettered "S" "a").toGrammar.pruneUnproductive.listing =
      (lettered "T" "a").toGrammar.pruneUnproductive.listing := of_decide_eq_true (by cbv)
  have htext := congrArg Listing.latex hlisting
  refine ⟨fun heq => ?_, htext, ((Attainable.latex_exact hS hT).1.1 htext).2, by decide⟩
  have halternatives := ((Attainable.latex_exact hhyphens hgroup).1.1 heq).1 "A"
  exact absurd halternatives (of_decide_eq_false (by cbv))

end Grammar

end ChomskyForm
