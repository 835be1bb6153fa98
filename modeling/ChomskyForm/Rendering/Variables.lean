import ChomskyForm.Analysis.Generation
import ChomskyForm.Analysis.Reachability
import ChomskyForm.Json.Writer
import ChomskyForm.Rendering.Latex

set_option autoImplicit false
set_option relaxedAutoImplicit false

/-!
# Tables of variables

For each variable of a grammar, whether it is nullable, reachable and productive, and which other
variables it leads to by unit alternatives. The table is set as plain text, in LaTeX or in JSON.

## Main definitions

* `ChomskyForm.VariableRow`: the results for one variable.
* `ChomskyForm.VariableTable`: the rows of all variables, in order.
* `ChomskyForm.Grammar.variableTable`: the table of a grammar.

## Main results

* `ChomskyForm.VariableTable.write_value`: writing a table in JSON does not fail.
-/

namespace ChomskyForm

/-- **Rows.** What is known of one variable, with the other variables it leads to from the least to
the greatest. -/
structure VariableRow where
  /-- The variable. -/
  name : Name
  /-- Whether it generates the empty word. -/
  nullable : Bool
  /-- Whether the start symbol leads to it. -/
  reachable : Bool
  /-- Whether it generates a word. -/
  productive : Bool
  /-- The other variables that it leads to by unit alternatives. -/
  unit : List Name
deriving DecidableEq, Repr

namespace VariableRow

/-- **Plain text.** -/
def plain (r : VariableRow) : String :=
  " | ".intercalate [r.name, truthText r.nullable, truthText r.reachable, truthText r.productive,
    ", ".intercalate r.unit]

/-- **LaTeX.** -/
def latex (r : VariableRow) : String :=
  " & ".intercalate [Latex.escape r.name, truthText r.nullable, truthText r.reachable,
    truthText r.productive, "\\ ".intercalate (r.unit.map Latex.escape)]

/-- **JSON.** -/
def json (r : VariableRow) : String :=
  Json.object [("name", Json.quote r.name), ("nullable", truthText r.nullable),
    ("reachable", truthText r.reachable), ("productive", truthText r.productive),
    ("unit", Json.array (r.unit.map Json.quote))]

/-- **A row as a value** to be written in JSON. -/
def value (r : VariableRow) : Json.Value :=
  .object [(.string "name", .string r.name), (.string "nullable", .bool r.nullable),
    (.string "reachable", .bool r.reachable), (.string "productive", .bool r.productive),
    (.string "unit", .array (r.unit.map .string))]

/-- Writing a row does not fail, since its keys are the names of its fields. -/
theorem write_value (r : VariableRow) : Json.write r.value = .ok r.json := by
  have hunit : Json.write (.array (r.unit.map .string)) =
      .ok (Json.array (r.unit.map Json.quote)) :=
    Json.write_array fun _ _ => rfl
  rw [value, Json.write, Json.writeMembers_cons rfl (Json.writeMembers_cons rfl
    (Json.writeMembers_cons rfl (Json.writeMembers_cons rfl (Json.writeMembers_cons hunit rfl))))]
  rfl

end VariableRow

/-- **Tables**: rows in the order of the variables. -/
structure VariableTable where
  /-- The rows. -/
  rows : List VariableRow
deriving DecidableEq, Repr

namespace VariableTable

/-- **Plain text**, a line for each variable. -/
def plain (t : VariableTable) : String := "\n".intercalate (t.rows.map (·.plain))

/-- **LaTeX**, with a head line. -/
def latex (t : VariableTable) : String :=
  "\\begin\x7btabular\x7d\x7bc|c|c|c|c\x7d\n" ++
    "Symbol & Nullable & Reachable & Productive & Unit\\\\\\hline\n" ++
    "\\\\\n ".intercalate (t.rows.map (·.latex)) ++ "\\\\\n\\end\x7btabular\x7d"

/-- **JSON.** -/
def json (t : VariableTable) : String :=
  Json.object [("data", Json.array (t.rows.map (·.json)))]

/-- **A table as a value** to be written in JSON. -/
def value (t : VariableTable) : Json.Value :=
  .object [(.string "data", .array (t.rows.map (·.value)))]

/-- **Writing a table** does not fail, whatever its rows are. -/
theorem write_value (t : VariableTable) : Json.write t.value = .ok t.json := by
  have hrows : Json.write (.array (t.rows.map (·.value))) =
      .ok (Json.array (t.rows.map (·.json))) :=
    Json.write_array fun r _ => r.write_value
  rw [value, Json.write, Json.writeMembers_cons hrows rfl]
  rfl

end VariableTable

/-- **The table of a grammar.** Each analysis is made once for all rows. A variable always leads to
itself by no unit alternatives at all, so it is left out of its own list. -/
def Grammar.variableTable (g : Grammar) : VariableTable :=
  let nullable := g.nullable
  let reachable := g.reachable
  let productive := g.productive
  let unitPairs := g.unitPairs
  ⟨g.nonterminals.toList.map fun v =>
    { name := v
      nullable := v ∈ nullable
      reachable := v ∈ reachable
      productive := v ∈ productive
      unit := ((unitPairs.get? v).getD ∅).toList.filter (· ≠ v) }⟩

end ChomskyForm
