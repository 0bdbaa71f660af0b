import BoolPoly.EquationSystem.Basic

namespace BoolPoly

/-- The value of every variable, by index. -/
abbrev Solution := Array Bool

/-- Why a solution is none. -/
inductive SolutionError where
  /-- An equation has the value one. -/
  | violated (equation : Polynomial)
  /-- An equation has a variable without value. -/
  | unbound (equation : Polynomial)
deriving DecidableEq

def SolutionError.message : SolutionError → String
  | violated equation => "Solution violates equation " ++ equation.text ++ " = 0"
  | unbound equation => "Solution leaves variables of equation " ++ equation.text ++ " = 0 unassigned"

namespace EquationSystem

/-- The value of a variable that is not replaced: the known one, else the one in the partial solution, else false. -/
def freeValue (s : EquationSystem) (given : Array (Option Bool)) (v : Var) : Bool :=
  (s.value? v).getD (given[v]?.join.getD false)

/-- The value of any variable: a replaced one follows its root, negated if the replacement is. -/
def completedValue (s : EquationSystem) (given : Array (Option Bool)) (v : Var) : Bool :=
  match s.replacement? v with
  | some r => s.freeValue given r.root ^^ r.inverted
  | none => s.freeValue given v

/-- Completes a partial solution by the facts of the system; other open variables become false. A partial solution may
leave variables open or be too short, and what it says about assigned and replaced variables does not count. -/
def extend (s : EquationSystem) (given : Array (Option Bool)) : Solution :=
  Array.ofFn fun v : Fin s.numVars => s.completedValue given v

/-- Checks one equation: it has to be zero at the solution, and all of its variables need a value there. -/
def checkEquation (solution : Solution) (p : Polynomial) : Except SolutionError Unit :=
  match p.eval? fun v => solution[v]? with
  | some false => .ok ()
  | some true => .error (.violated p)
  | none => .error (.unbound p)

/-- Checks that a solution satisfies every equation and fact. The first one that it fails, or that is about a variable
without a value in it, is reported. -/
def check (s : EquationSystem) (solution : Solution) : Except SolutionError Unit :=
  s.polynomials.forM (checkEquation solution)

end EquationSystem

end BoolPoly
