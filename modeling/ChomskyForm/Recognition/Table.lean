import ChomskyForm.Stage.NormalForm

set_option autoImplicit false
set_option relaxedAutoImplicit false

/-!
# Recognition by a table of spans

Recognition for grammars in Chomsky normal form. A table holds, for each span of a word, the
variables that generate it. The spans of one letter come from the alternatives that are single
terminals; a longer span is cut in two in all possible ways, and a pair of variables that
generates the two parts is looked for. Empty alternatives are of no use in a span that is not
empty, so only the empty word asks for one.

## Main definitions

* `ChomskyForm.SpanTable`: the variables of the spans, by length and position.
* `ChomskyForm.Grammar.spanTable`: the table of a word.
* `ChomskyForm.Grammar.cykAccepts`: whether a grammar in Chomsky normal form generates a word.
-/

namespace ChomskyForm

/-- **Tables of spans.** The row at index `l` has the spans of length `l + 1`, from left to right
as far as the word has any. -/
structure SpanTable where
  /-- The rows. -/
  rows : Array (Array (SortedSet Name))
deriving DecidableEq

namespace SpanTable

/-- **The variables of a span**, the one of length `l + 1` that begins at position `i`. There are
none to be had for a span that the table does not hold. -/
def span? (t : SpanTable) (l i : Nat) : Option (SortedSet Name) :=
  t.rows[l]?.bind fun row => row[i]?

end SpanTable

namespace Grammar

/-- **One letter.** The variables with that letter as an alternative. -/
def letterSpan (g : Grammar) (a : Name) : SortedSet Name :=
  SortedSet.ofList ((g.rules.filter fun r => r.right = [.terminal a]).map (·.left))

/-- The variables with a pair as an alternative whose parts belong to the two sets, once for each
such pair. -/
def pairSpan (g : Grammar) (first second : SortedSet Name) : List Name :=
  (g.rules.filter fun r =>
    match r.right with
    | [.nonterminal b, .nonterminal c] => b ∈ first && c ∈ second
    | _ => false).map (·.left)

/-- **A longer span.** The variables that generate the span of length `l + 2` at position `i`, by
way of some cut into a part of length `k + 1` and the rest. Both parts are shorter, so the rows of
the table so far hold them. -/
def longSpan (g : Grammar) (t : SpanTable) (l i : Nat) : SortedSet Name :=
  SortedSet.ofList ((List.range (l + 1)).flatMap fun k =>
    match t.span? k i, t.span? (l - k) (i + k + 1) with
    | some first, some second => g.pairSpan first second
    | _, _ => [])

/-- **The table of a word**, up to spans of length `l + 1`. Each row is computed from those before
it, and is shorter by one than the last of them. -/
def spanTable (g : Grammar) (word : List Name) : Nat → SpanTable
  | 0 => ⟨#[(word.map g.letterSpan).toArray]⟩
  | l + 1 =>
    let t := g.spanTable word l
    ⟨t.rows.push (((List.range (word.length - (l + 1))).map (g.longSpan t l)).toArray)⟩

/-- **Recognition by a table**, for grammars in Chomsky normal form only; for others there is no
answer. The empty word is looked up among the alternatives of the start symbol, any other word in
the last row of its table. -/
def cykAccepts (g : Grammar) (word : List Name) : Option Bool :=
  if !g.isNormal then none
  else
    match word.length with
    | 0 => some ([] ∈ g.alternatives g.start)
    | n + 1 =>
      match (g.spanTable word n).span? n 0 with
      | some span => some (g.start ∈ span)
      | none => some false

end Grammar

end ChomskyForm
