import BoolPoly.Cnf
import BoolPoly.Karnaugh.Table

namespace BoolPoly.Karnaugh

/-- Whether the polynomial has no more variables than the table holds. Only the variables that occur count, not their
indices. -/
def Table.fits (t : Table) (p : Polynomial) : Bool := decide (p.vars.size ≤ t.capacity)

/-- The value of `v` in an assignment to the listed variables; false for any other variable. -/
def valueIn (vars : List Var) (bits : Nat) (v : Var) : Bool := bits.testBit (vars.idxOf v)

/-- The assignments to its own variables under which the polynomial is one. These violate the equation `p = 0`. -/
def violations (p : Polynomial) : List Nat :=
  (List.range (1 <<< p.vars.size)).filter fun bits => p.eval (valueIn p.vars.toList bits)

/-- The minimized table of a polynomial. The rows of an earlier polynomial are cleared, and one row is entered for
each violation. As the table is total, only the on-set is written. -/
def Table.tabulate (t : Table) (p : Polynomial) : Except TableError Table := do
  if t.fits p then
    let cleared ← t.reset p.vars.size
    let total := (violations p).foldl (fun table bits => table.push (UInt32.ofNat bits) true) cleared
    return total.minimize
  else throw (.capacityExceeded p p.vars.size t.capacity)

/-- The clause that forbids the assignments inside a cube. It has one literal for each fixed variable, and none for
the free ones. -/
def forbid (vars : List Var) (c : Cube) : Clause :=
  (vars.zip (c.cells vars.length)).filterMap fun (v, cell) =>
    match cell with
    | .zero => some ⟨v, true⟩
    | .one => some ⟨v, false⟩
    | .dontCare => none

/-- The clauses that hold exactly where `p` is zero, and the table they were read from. The violations of the equation
are covered by prime implicants, and each implicant becomes the clause that forbids it. A polynomial with too many
variables is refused before the table is touched. -/
def Table.convert (t : Table) (p : Polynomial) : Except TableError (List Clause × Table) := do
  let table ← t.tabulate p
  return (table.on.map (forbid p.vars.toList), table)

/-- A report of a conversion, or of its failure. -/
def report (p : Polynomial) (clauses : Except TableError (List Clause)) : String :=
  match clauses with
  | .ok clauses =>
    "Converting: \"" ++ p.text ++ "\" to Karnaugh clauses:\n" ++ "\n".intercalate (clauses.map Clause.text)
  | .error e => "Cannot convert \"" ++ p.text ++ "\": " ++ e.message

end BoolPoly.Karnaugh
