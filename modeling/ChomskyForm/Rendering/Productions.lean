import ChomskyForm.Grammar.Basic
import ChomskyForm.Rendering.Latex

set_option autoImplicit false
set_option relaxedAutoImplicit false

/-!
# Listings of productions

The productions of a grammar, grouped by left-hand side and set as plain text or in LaTeX. The
start symbol comes first, then the other variables in order; a variable without alternatives is
left out.

## Main definitions

* `ChomskyForm.Paragraph`: one left-hand side with its right-hand sides.
* `ChomskyForm.Paragraph.plain`, `ChomskyForm.Paragraph.latex`: its two settings.
* `ChomskyForm.Grammar.listing`: the paragraphs of a grammar.
* `ChomskyForm.Listing.plain`, `ChomskyForm.Listing.latex`: the settings of a listing.

## Main results

* `ChomskyForm.Grammar.filled_of_mem_listing`: in the listing of a grammar nothing is empty.
-/

namespace ChomskyForm

/-- **Paragraphs.** A left-hand side with right-hand sides in names, which is all that the two
settings look at. -/
structure Paragraph where
  /-- The left-hand side. -/
  left : Name
  /-- The right-hand sides, in the order in which they are set. -/
  rights : List (List Name)
deriving DecidableEq, Repr

/-- A number of blanks. -/
def blanks (n : Nat) : String := String.ofList (List.replicate n ' ')

/-- A text moved to the right end of a column. A text wider than the column stays as it is; widths
are counted in characters. -/
def padLeft (width : Nat) (text : String) : String := blanks (width - text.length) ++ text

namespace Paragraph

/-- **Filled paragraphs** have right-hand sides, and each of these has names. Both settings can be
read back for filled paragraphs only, since the others leave nothing to be read. -/
structure Filled (p : Paragraph) : Prop where
  /-- There is a right-hand side. -/
  rights_ne_nil : p.rights ≠ []
  /-- No right-hand side is empty. -/
  ne_nil : ∀ right ∈ p.rights, right ≠ []

/-- What stands between two right-hand sides in plain text. On separate lines, a bar stands below
the arrow. -/
def separator (width : Nat) (multiline : Bool) : String :=
  if multiline then "\n" ++ blanks width ++ "  | " else " | "

/-- **Plain text.** The left-hand side at the right end of a column of the given width, an arrow
and the right-hand sides, each on a line of its own or all on one line. A paragraph without
right-hand sides is empty. -/
def plain (width : Nat) (multiline : Bool) (p : Paragraph) : String :=
  match p.rights with
  | [] => ""
  | right :: rights =>
    padLeft width p.left ++ " -> " ++ " ".intercalate right ++
      String.join (rights.map fun right => separator width multiline ++ " ".intercalate right)

/-- **LaTeX.** One line, with marks for the columns of an array if `aligned`. A paragraph without
right-hand sides is empty. -/
def latex (aligned : Bool) (p : Paragraph) : String :=
  if p.rights.isEmpty then ""
  else
    let arrow := if aligned then " & \\rightarrow &" else " \\rightarrow "
    let rights := p.rights.map fun right => " \\ ".intercalate (right.map Latex.escape)
    Latex.markEpsilon (Latex.escape p.left ++ arrow ++ " \\mid ".intercalate rights)

end Paragraph

/-- **Listings**: paragraphs in the order in which they are set. -/
structure Listing where
  /-- The paragraphs. -/
  paragraphs : List Paragraph
deriving DecidableEq, Repr

namespace Listing

/-- The width of the widest left-hand side, 0 for a listing without paragraphs. -/
def width (l : Listing) : Nat := (l.paragraphs.map (·.left.length)).foldl max 0

/-- **Plain text.** All arrows stand below each other. -/
def plain (l : Listing) : String :=
  "\n".intercalate (l.paragraphs.map (·.plain l.width true))

/-- **LaTeX.** The paragraphs as the lines of an array. -/
def latex (l : Listing) : String :=
  "\\\\\n".intercalate
    ("\\[\\begin\x7barray\x7d\x7bcll\x7d" :: l.paragraphs.map (·.latex true) ++
      ["\\end\x7barray\x7d\\]"])

end Listing

namespace Grammar

/-- The paragraph of a variable, its alternatives being spelled in names. The empty one is spelled
with the reserved name. -/
def paragraph (g : Grammar) (v : Name) : Paragraph :=
  ⟨v, (g.alternatives v).toList.map Symbol.spell⟩

/-- **The listing of a grammar**: the start symbol first, then the other variables, as far as they
have alternatives. A start symbol without alternatives is left out like any other variable. -/
def listing (g : Grammar) : Listing :=
  ⟨((g.start :: g.nonterminals.toList.filter (· ≠ g.start)).map g.paragraph).filter fun p =>
    !p.rights.isEmpty⟩

/-- **In the listing of a grammar nothing is empty.** A paragraph of it is that of a variable with
alternatives, which are spelled with one name at least. -/
theorem filled_of_mem_listing {g : Grammar} {p : Paragraph} (hp : p ∈ g.listing.paragraphs) :
    p.Filled := by
  obtain ⟨hmem, hrights⟩ := List.mem_filter.1 hp
  refine ⟨by simpa using hrights, fun right hright => ?_⟩
  obtain ⟨v, -, rfl⟩ := List.mem_map.1 hmem
  obtain ⟨form, -, rfl⟩ := List.mem_map.1 hright
  exact Symbol.spell_ne_nil form

end Grammar

end ChomskyForm
