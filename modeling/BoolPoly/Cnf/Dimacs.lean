import BoolPoly.Cnf

namespace BoolPoly

/-- The number of a literal, in decimal: variables count from one, and a negation has a minus sign. -/
def Literal.dimacs (l : Literal) : String := (if l.positive then "" else "-") ++ Nat.repr (l.var + 1)

/-- The line of a clause, with its end. -/
def Clause.dimacs (c : Clause) : String := String.join (c.map fun l => l.dimacs ++ " ") ++ "0\n"

/-- The DIMACS text of a formula that declares at least `declared` variables, and more if more occur. A header gives
the numbers of variables and clauses; each clause follows on a line of its own, as the numbers of its literals and a
closing zero. -/
def Cnf.dimacs (f : Cnf) (declared : Nat) : String :=
  "p cnf " ++ Nat.repr (max declared f.numVars) ++ " " ++ Nat.repr f.length ++ "\n" ++
    String.join (f.map Clause.dimacs)

end BoolPoly
