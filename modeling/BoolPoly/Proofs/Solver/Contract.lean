import BoolPoly.Parity
import BoolPoly.Solver.Contract
import BoolPoly.Proofs.Cnf.Extension

namespace BoolPoly

/-- Whether the variables of the relation have the sum that it states. -/
def XorRelation.Holds (a : Var → Bool) (r : XorRelation) : Prop := parity (r.vars.map a) = r.rhs

/-- Whether the assignment satisfies the clauses and the assumptions, which count like unit clauses. -/
structure HoldsUnder (a : Var → Bool) (f : Cnf) (assumptions : List Literal) : Prop where
  clauses : f.holds a = true
  assumptions : ∀ l ∈ assumptions, l.holds a = true

/-- Whether the assignment is a model of the query. Values of variables that the query does not have are included, and
do not count. -/
def Query.Holds (a : Var → Bool) (q : Query) : Prop := HoldsUnder a q.clauses q.assumptions

/-- Whether clauses and assumptions are about the variables of the query. Those of an encoded system are. -/
structure Query.Bounded (q : Query) : Prop where
  clauses : q.clauses.Below q.numVars
  assumptions : ∀ l ∈ q.assumptions, l.var < q.numVars

/-- Whether every reported fact holds at an assignment: units, equivalences and linear relations, the combined ones
included. -/
structure Report.Holds (a : Var → Bool) (r : Report) : Prop where
  units : ∀ l ∈ r.units, l.holds a = true
  equivalences : ∀ pair ∈ r.equivalences, pair.1.holds a = pair.2.holds a
  relations : ∀ x ∈ r.relations, x.Holds a
  combined : ∀ x ∈ r.combined, x.Holds a

/-- Whether the report follows from the query: the facts in it hold in every model, and the query has no model if it
is said to be unsatisfiable. -/
structure Report.Implied (q : Query) (r : Report) : Prop where
  facts : ∀ a, q.Holds a → r.Holds a
  unsat : r.outcome = .unsat → ∀ a, ¬q.Holds a

/-- Whether all that the solver reports follows from what it was asked. Nothing is said about how much it reports, and
it may fail. -/
def Solver.Sound (solver : Solver) : Prop := ∀ q r, q.Bounded → solver q = .ok r → r.Implied q

end BoolPoly
