import BoolPoly.Encoding.Sum
import BoolPoly.Solver.Contract

namespace BoolPoly.XorRecovery

/-- The longest clauses considered: a sum of `k` variables needs `2 ^ (k - 1)` clauses. -/
def maxLength : Nat := 6

/-- The literals in ascending order. -/
def sorted (c : Clause) : Clause := c.mergeSort fun l k => (compare l k).isLE

/-- The clauses that may belong to a relation, with their literals in ascending order: those of two to six literals
over distinct variables. -/
def eligible (f : Cnf) : List Clause :=
  (f.map sorted).filter fun c =>
    2 ≤ c.length && c.length ≤ maxLength && decide (c.map Literal.var).Nodup

/-- The sets of variables of the clauses, each once, in lexicographic order. -/
def supports (clauses : List Clause) : List (List Var) :=
  (OrderedSet.ofList (clauses.map fun c => c.map Literal.var)).toList

/-- Whether all clauses that forbid the wrong parity are there. What else there is does not matter. -/
def isPresent (clauses : List Clause) (r : XorRelation) : Bool :=
  (parityClauses r.vars r.rhs).all fun c => clauses.contains c

/-- The relations among the clauses, ordered by their variables. A sum modulo two over some variables is found when
all clauses that forbid the wrong parity are there, whatever the order of their literals. -/
def relations (f : Cnf) : List XorRelation :=
  let clauses := eligible f
  (supports clauses).flatMap fun vars =>
    let own := clauses.filter fun c => c.map Literal.var == vars
    [⟨vars, true⟩, ⟨vars, false⟩].filter (isPresent own)

/-- The two-element sublists of a list, in its order. -/
def pairs {α : Type} : List α → List (α × α)
  | [] => []
  | a :: rest => rest.map (fun b => (a, b)) ++ pairs rest

/-- The sum of two relations that share a variable, unless all variables cancel. -/
def combine? (r q : XorRelation) : Option XorRelation :=
  if r.vars.any q.vars.contains then
    let vars := (OrderedSet.symmDiff (.ofList r.vars) (.ofList q.vars)).toList
    if vars.isEmpty then none else some ⟨vars, r.rhs ^^ q.rhs⟩
  else none

/-- The sums of two of the relations, each once and in ascending order. -/
def combinations (rs : List XorRelation) : List XorRelation :=
  (OrderedSet.ofList ((pairs rs).filterMap fun (r, q) => combine? r q)).toList

end BoolPoly.XorRecovery
