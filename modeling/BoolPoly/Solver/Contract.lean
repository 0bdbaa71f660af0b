import BoolPoly.Cnf

open Std

namespace BoolPoly

/-- The verdict of a solver. It is the only part of an answer that says whether there is a model. -/
inductive Outcome where
  | sat
  | unsat
  /-- The budget ran out before a verdict. -/
  | undetermined
deriving DecidableEq, Repr

def Outcome.text : Outcome → String
  | sat => "SAT"
  | unsat => "UNSAT"
  | undetermined => "UNKNOWN"

/-- Why a solver gives no answer. Running out of its budget is not an error, but an outcome. -/
inductive SolverError where
  | failed (reason : String)
deriving DecidableEq, Repr

def SolverError.message : SolverError → String
  | failed reason => "SAT backend failed: " ++ reason

/-- The statement that the variables have the sum `rhs` modulo two. The variables ascend in relations that are
recovered from clauses. -/
structure XorRelation where
  vars : List Var
  rhs : Bool
deriving DecidableEq, Repr

instance : Ord XorRelation := ⟨compareLex (compareOn XorRelation.vars) (compareOn XorRelation.rhs)⟩

instance : TransOrd XorRelation :=
  inferInstanceAs (TransCmp (compareLex (compareOn XorRelation.vars) (compareOn XorRelation.rhs)))

instance : LawfulEqOrd XorRelation where
  eq_of_compare {r q} h := by
    obtain ⟨hvars, hrhs⟩ := compareLex_eq_eq.1 h
    obtain ⟨vs, b⟩ := r
    obtain ⟨ws, c⟩ := q
    have hvw : vs = ws := LawfulEqOrd.eq_of_compare hvars
    have hbc : b = c := LawfulEqOrd.eq_of_compare hrhs
    rw [hvw, hbc]

/-- A question to a solver: whether the clauses can hold together with the assumptions. -/
structure Query where
  numVars : Nat
  clauses : Cnf
  assumptions : List Literal
  maxConflicts : Nat
  verbosity : Nat
deriving DecidableEq, Repr

/-- No clauses over no variables, with the greatest budget that fits a 64-bit word. -/
def Query.empty : Query :=
  { numVars := 0, clauses := [], assumptions := [], maxConflicts := UInt64.size - 1, verbosity := 0 }

/-- The answer of a solver, with what it has derived. The facts in it have to follow from the clauses together with
the assumptions, whatever the outcome is. -/
structure Report where
  outcome : Outcome
  /-- A satisfying assignment, by variable. -/
  model : Option (Array Bool)
  /-- Literals that hold in every model. -/
  units : List Literal
  /-- Pairs of literals that are equal in every model. -/
  equivalences : List (Literal × Literal)
  /-- Linear relations found among the clauses. -/
  relations : List XorRelation
  /-- Sums of two such relations that share a variable. -/
  combined : List XorRelation
deriving DecidableEq, Repr

/-- A solver that is given a query once, on which it reports or fails. All that simplification asks of it is in the
query, and all that it takes over is in the report. -/
abbrev Solver := Query → Except SolverError Report

end BoolPoly
