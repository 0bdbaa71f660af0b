import BoolPoly.Solver.Probing
import BoolPoly.Solver.Search
import BoolPoly.Solver.XorRecovery

namespace BoolPoly

/-- Decides whether a formula over a number of variables can hold under assumptions, by a model. -/
abbrev Decider := (numVars : Nat) → Cnf → (assumptions : List Literal) → Option (Array Bool)

/-- The variables of the query that no assumption fixes. -/
def Query.unassumed (q : Query) : List Var :=
  (List.range q.numVars).filter fun v => !(q.assumptions.map Literal.var).contains v

/-- What a satisfiable query implies, by probing from its model. The conflict budget of the query limits the number of
probes, and is not spent on the query itself. -/
def Decider.probe (decide : Decider) (q : Query) (model : Array Bool) : Probing.Findings :=
  Probing.run (fun extra => decide q.numVars q.clauses (q.assumptions ++ extra)) q.maxConflicts q.unassumed model

/-- A solver between two calls: what it has been given so far, and what the last question has left behind. Clauses and
variables are only ever added, while a question clears what the one before it has found. -/
structure ProbingSolver where
  numVars : Nat
  clauses : Cnf
  maxConflicts : Nat
  verbosity : Nat
  /-- The model of the last question, if it had one. -/
  model : Option (Array Bool)
  /-- The units found for the last question. -/
  units : List Literal
  /-- The equivalences found for the last question, in the order of their discovery. -/
  equivalences : List (Literal × Literal)

namespace ProbingSolver

/-- The solver that has been given a query and not been asked anything. -/
def load (q : Query) : ProbingSolver :=
  { numVars := q.numVars
    clauses := q.clauses
    maxConflicts := q.maxConflicts
    verbosity := q.verbosity
    model := none
    units := []
    equivalences := [] }

/-- What the solver is asked with these assumptions. -/
def query (s : ProbingSolver) (assumptions : List Literal) : Query :=
  { numVars := s.numVars
    clauses := s.clauses
    assumptions
    maxConflicts := s.maxConflicts
    verbosity := s.verbosity }

/-- Forgets what the last question has left behind. -/
def clear (s : ProbingSolver) : ProbingSolver := { s with model := none, units := [], equivalences := [] }

/-- Decides whether the clauses can hold under assumptions, and derives facts by probing if they can. After a
contradiction nothing is left behind, neither from this question nor from an earlier one. -/
def solve (decide : Decider) (s : ProbingSolver) (assumptions : List Literal) : Outcome × ProbingSolver :=
  let s := s.clear
  match decide s.numVars s.clauses assumptions with
  | none => (.unsat, s)
  | some model =>
    let found := decide.probe (s.query assumptions) model
    (.sat, { s with model := some model, units := found.units, equivalences := found.equivalences })

section

variable {decide : Decider} {s : ProbingSolver} {assumptions : List Literal}

theorem solve_of_none (h : decide s.numVars s.clauses assumptions = none) :
    s.solve decide assumptions = (.unsat, s.clear) := by
  have h : decide s.clear.numVars s.clear.clauses assumptions = none := h
  simp only [solve, h]

/-- The facts are those that probing finds for the clauses and assumptions, whatever was left behind before. -/
theorem solve_of_some {model : Array Bool} (h : decide s.numVars s.clauses assumptions = some model) :
    s.solve decide assumptions = (.sat, { s with
      model := some model
      units := (decide.probe (s.query assumptions) model).units
      equivalences := (decide.probe (s.query assumptions) model).equivalences }) := by
  have h : decide s.clear.numVars s.clear.clauses assumptions = some model := h
  simp only [solve, h]
  rfl

end

/-- The linear relations among the clauses, whether or not a question has been asked. -/
def relations (s : ProbingSolver) : List XorRelation := XorRecovery.relations s.clauses

/-- The sums of two of these relations. -/
def combined (s : ProbingSolver) : List XorRelation := XorRecovery.combinations s.relations

end ProbingSolver

/-- The solver that decides a query by `decide` and derives facts by probing: a new one is given the query, asked
once, and its fields are read. The equivalences stand in the order of their discovery, which depends on the models
that are found. -/
def Decider.solver (decide : Decider) : Solver := fun q =>
  let (outcome, s) := (ProbingSolver.load q).solve decide q.assumptions
  .ok {
    outcome
    model := s.model
    units := s.units
    equivalences := s.equivalences
    relations := s.relations
    combined := s.combined }

namespace Decider

variable {decide : Decider} {q : Query}

theorem solver_of_none (h : decide q.numVars q.clauses q.assumptions = none) : decide.solver q = .ok {
    outcome := .unsat
    model := none
    units := []
    equivalences := []
    relations := XorRecovery.relations q.clauses
    combined := XorRecovery.combinations (XorRecovery.relations q.clauses) } := by
  have h : decide (ProbingSolver.load q).numVars (ProbingSolver.load q).clauses q.assumptions = none := h
  rw [solver, ProbingSolver.solve_of_none h]
  rfl

theorem solver_of_some {model : Array Bool} (h : decide q.numVars q.clauses q.assumptions = some model) :
    decide.solver q = .ok {
      outcome := .sat
      model := some model
      units := (decide.probe q model).units
      equivalences := (decide.probe q model).equivalences
      relations := XorRecovery.relations q.clauses
      combined := XorRecovery.combinations (XorRecovery.relations q.clauses) } := by
  have h : decide (ProbingSolver.load q).numVars (ProbingSolver.load q).clauses q.assumptions = some model := h
  rw [solver, ProbingSolver.solve_of_some h]
  rfl

end Decider

/-- The probing solver on the complete search. -/
def probingSolver : Solver := Decider.solver Cnf.solveUnder

end BoolPoly
