import BoolPoly.Monomial
import BoolPoly.ThreeValued

open Std

namespace BoolPoly

/-- A variable, or with `positive = false` its negation. Assumptions and derived units are literals, as well as the
parts of clauses. -/
structure Literal where
  var : Var
  positive : Bool
deriving DecidableEq, Repr

namespace Literal

/-- Literals are ordered by variable; a negation comes before its variable. -/
instance : Ord Literal := ⟨compareLex (compareOn Literal.var) (compareOn Literal.positive)⟩

instance : TransOrd Literal :=
  inferInstanceAs (TransCmp (compareLex (compareOn Literal.var) (compareOn Literal.positive)))

/-- The literal that holds exactly when this one does not. -/
def negate (l : Literal) : Literal := { l with positive := !l.positive }

/-- Whether the literal holds when its variable has the value `b`. -/
def satisfiedBy (l : Literal) (b : Bool) : Bool := b == l.positive

def holds (a : Var → Bool) (l : Literal) : Bool := l.satisfiedBy (a l.var)

def text (l : Literal) : String := (if l.positive then "" else "-") ++ l.var.text

end Literal

/-- A disjunction of literals, in the order in which they were written. The meaning of a clause does not depend on the
order. -/
abbrev Clause := List Literal

namespace Clause

def holds (a : Var → Bool) (c : Clause) : Bool := c.any (Literal.holds a)

/-- The value under a partial assignment: an unbound variable leaves the clause undecided unless another literal
holds. -/
def eval? (a : Var → Option Bool) (c : Clause) : Option Bool :=
  ThreeValued.any (c.map fun l => (a l.var).map l.satisfiedBy)

def text (c : Clause) : String := "(" ++ " ∨ ".intercalate (c.map Literal.text) ++ ")"

end Clause

/-- A conjunction of clauses, in the order in which they were written. Like the order of the literals in a clause, it
matters for the text of a formula and not for its meaning. -/
abbrev Cnf := List Clause

namespace Cnf

def holds (a : Var → Bool) (f : Cnf) : Bool := f.all (Clause.holds a)

/-- The value under a partial assignment: a clause that is false decides the formula, and otherwise one that is
undecided leaves it undecided. -/
def eval? (a : Var → Option Bool) (f : Cnf) : Option Bool := ThreeValued.all (f.map (Clause.eval? a))

/-- The clauses of both formulas, those of the longer one first. Which one comes first only matters for the text. -/
def and (f g : Cnf) : Cnf := if f.length < g.length then g ++ f else f ++ g

/-- One more than the greatest index of a variable that occurs. -/
def numVars (f : Cnf) : Nat := f.flatten.foldr (fun l n => max (l.var + 1) n) 0

def text (f : Cnf) : String := "(" ++ " ∧ ".intercalate (f.map Clause.text) ++ ")"

end Cnf

end BoolPoly
