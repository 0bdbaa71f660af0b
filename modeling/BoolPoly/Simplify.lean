import BoolPoly.Encoding.Basic
import BoolPoly.EquationSystem.Solution
import BoolPoly.Solver.Contract

namespace BoolPoly

/-- Why simplification fails. An error of the encoding comes before the solver is asked, and the last two are about
the model that it finds. -/
inductive SimplifyError where
  | encoding (e : EncodingError)
  | solver (e : SolverError)
  /-- The completed model does not solve the given system. -/
  | solution (e : SolutionError)
  /-- The solver reports satisfiability without a model. -/
  | missingModel
deriving DecidableEq

def SimplifyError.message : SimplifyError → String
  | encoding e => e.message
  | solver e => e.message
  | solution _ => "SAT model does not solve the original system"
  | missingModel => "a satisfiable solver call provides a model"

/-- The error behind an error that has words of its own. -/
def SimplifyError.cause? : SimplifyError → Option String
  | solution e => some e.message
  | _ => none

/-- What simplification finds out: a contradiction, or a number of new facts. -/
inductive Simplified where
  /-- The system is contradictory. -/
  | unsat
  /-- The number of facts that have changed the system, and a solution if the solver found one. -/
  | learnt (count : Nat) (solution : Option Solution)
deriving DecidableEq

/-- The number of facts learnt, or `-1` for a contradictory system. -/
def Simplified.count : Simplified → Int
  | unsat => -1
  | learnt n _ => n

/-- The kinds of derived facts, each of which is learnt as a whole before the next. -/
inductive Stage where
  | units
  | equivalences
  | relations
deriving DecidableEq, Repr

namespace Stage

def text : Stage → String
  | units => "units"
  | equivalences => "binary XORs"
  | relations => "linear relations"

/-- The order in which facts are learnt: each stage benefits from the values and replacements of the stages before
it. -/
def pipeline : List Stage := [units, equivalences, relations]

end Stage

namespace Encoding

/-- The polynomial `m + 1` or `m` of a unit over a monomial. That a product is zero is not used. -/
def unitPolynomial? (e : Encoding) (l : Literal) : Option Polynomial := do
  let m ← e.monomialOf? l.var
  if 1 < m.degree ∧ l.positive = false then none
  else some (.ofMonomial m + .constant l.positive)

/-- The polynomial `x + y + c` of two equal literals over variables of the system. -/
def equivalencePolynomial? (e : Encoding) (pair : Literal × Literal) : Option Polynomial := do
  let m ← e.monomialOf? pair.1.var
  let n ← e.monomialOf? pair.2.var
  if 1 < m.degree ∨ 1 < n.degree then none
  else some (.ofMonomial m + .ofMonomial n + .constant (pair.1.positive ^^ pair.2.positive))

/-- The polynomial of a linear relation in which no partial sum occurs. Products may occur in it. -/
def relationPolynomial? (e : Encoding) (r : XorRelation) : Option Polynomial := do
  let ms ← r.vars.mapM e.monomialOf?
  some (.sum ms + .constant r.rhs)

/-- What one stage offers for learning. Relations have to be linear once the facts known before the stage are put
in. -/
def candidates (e : Encoding) (report : Report) (s : EquationSystem) : Stage → List Polynomial
  | .units => report.units.filterMap e.unitPolynomial?
  | .equivalences => report.equivalences.filterMap e.equivalencePolynomial?
  | .relations =>
    ((report.relations ++ report.combined).filterMap e.relationPolynomial?).filter fun p =>
      (s.resolve p).degree == 1

end Encoding

namespace EquationSystem

/-- Learns polynomials one after the other and counts those that change the system. Each one meets the system as the
polynomials before it have left it. -/
def learnAll (s : EquationSystem) (ps : List Polynomial) : Nat × EquationSystem :=
  ps.foldl
    (fun (n, s) p =>
      let (changed, s) := s.learn p
      (n + changed.toNat, s))
    (0, s)

/-- Learns what the solver has derived, stage by stage. The candidates of a stage are taken from the report with the
system as the stages before have left it. -/
def learnReport (s : EquationSystem) (e : Encoding) (report : Report) : Nat × EquationSystem :=
  Stage.pipeline.foldl
    (fun (n, s) stage =>
      let (count, s) := s.learnAll (e.candidates report s stage)
      (n + count, s))
    (0, s)

/-- One attempt to simplify a system. The system comes back in any case: what was learnt before an error stays. -/
structure Attempt where
  /-- The system afterwards, also after an error. -/
  system : EquationSystem
  /-- What the solver was asked; nothing if it was not needed or there was nothing to ask. -/
  query? : Option Query
  result : Except SimplifyError Simplified

/-- What the solver is asked about an encoding: its clauses, with the known values of the system as assumptions. -/
def queryOf (e : Encoding) (config : Config) : Query :=
  { numVars := e.numVars
    clauses := e.clauses
    assumptions := e.assumptions
    maxConflicts := config.maxConflicts
    verbosity := config.verbosity }

/-- Completes a model by the facts of the system and checks it against the system as it was given. -/
def solutionOf (s given : EquationSystem) (e : Encoding) (model : Array Bool) :
    Except SimplifyError Solution :=
  let solution := s.extend (e.restrict model)
  match given.check solution with
  | .ok () => .ok solution
  | .error err => .error (.solution err)

/-- Takes an answer of the solver over into the system. A contradiction is recorded; otherwise the derived facts are
learnt, and then the model is completed and checked if there is one. -/
def conclude (s given : EquationSystem) (e : Encoding) (report : Report) :
    EquationSystem × Except SimplifyError Simplified :=
  match report.outcome with
  | .unsat => ((s.add .one).2, .ok .unsat)
  | outcome =>
    let (count, s) := s.learnReport e report
    match outcome, report.model with
    | .sat, none => (s, .error .missingModel)
    | .sat, some model => (s, (s.solutionOf given e model).map fun solution => .learnt count (some solution))
    | _, _ => (s, .ok (.learnt count none))

/-- Simplifies `s` with the help of a solver. The system is encoded and handed to the solver; what the solver has
derived is read as polynomials over the monomials that the solver's variables stand for, and learnt. A model is
completed to a solution and checked against `given`, the system as it was given. -/
def simplify (s given : EquationSystem) (config : Config) (solver : Solver) : Attempt :=
  if s.consistent then
    match Encoding.ofSystem s config with
    | .error err => { system := s, query? := none, result := .error (.encoding err) }
    | .ok e =>
      let query := queryOf e config
      match solver query with
      | .error err => { system := s, query? := some query, result := .error (.solver err) }
      | .ok report =>
        let (system, result) := s.conclude given e report
        { system, query? := some query, result }
  else { system := s, query? := none, result := .ok .unsat }

end EquationSystem

end BoolPoly
