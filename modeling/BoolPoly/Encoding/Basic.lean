import BoolPoly.Config
import BoolPoly.Encoding.Sum
import BoolPoly.EquationSystem.Basic
import BoolPoly.Karnaugh.Conversion

namespace BoolPoly

/-- What a variable beyond those of the system stands for: a product that some equation has asked for, or the sum of
the variables of a chunk. -/
inductive Role where
  | product (m : Monomial)
  | partialSum
deriving DecidableEq

/-- Why an equation cannot be encoded. An error of the table comes from the configured bounds; the other two are an
assertion that does not hold and an overflow, and end a run on the spot. -/
inductive EncodingError where
  | table (e : Karnaugh.TableError)
  /-- A linear monomial lies beyond the variables of the system. -/
  | outside (v : Var)
  /-- The assignments to the variables of a chunk cannot be counted by a word. -/
  | overflow
deriving DecidableEq

def EncodingError.message : EncodingError → String
  | table e => e.message
  | outside v => v.text ++ " is outside the ANF"
  | overflow => "attempt to shift left with overflow"

/-- Clauses for a system of equations and what their variables stand for. The variables of the system keep their
indices; further variables stand for products of variables and for partial sums. The known values of the system are
not among the clauses: they are assumptions beside them. -/
structure Encoding where
  /-- The table for converting short equations. -/
  table : Karnaugh.Table
  tableCutoff : Nat
  chunkLength : Nat
  /-- The number of variables of the system. -/
  numSystemVars : Nat
  /-- The roles of the variables from `numSystemVars` on. -/
  added : List Role
  /-- The clauses that define products. -/
  definitions : List Clause
  /-- The clauses of each encoded equation. -/
  equations : List (List Clause)
  /-- The known values of the system. -/
  assumptions : List Literal

namespace Encoding

/-- The encoding of no equation, over the variables of a system. Its known values are taken over as assumptions. This
is where a capacity that is not supported is refused. -/
def new (s : EquationSystem) (config : Config) : Except EncodingError Encoding :=
  match Karnaugh.Table.new config.tableCapacity with
  | .error e => .error (.table e)
  | .ok table =>
    .ok {
      table
      tableCutoff := config.tableCutoff
      chunkLength := config.chunkLength
      numSystemVars := s.numVars
      added := []
      definitions := []
      equations := []
      assumptions := s.values.toList.map fun (v, b) => ⟨v, b⟩ }

/-- The number of variables of all kinds. -/
def numVars (e : Encoding) : Nat := e.numSystemVars + e.added.length

/-- All clauses: the definitions and then the equations. -/
def clauses (e : Encoding) : List Clause := e.definitions ++ e.equations.flatten

def numClauses (e : Encoding) : Nat := e.definitions.length + e.equations.flatten.length

/-- The monomial that a variable stands for; none for a partial sum or an unused index. -/
def monomialOf? (e : Encoding) (v : Var) : Option Monomial :=
  if v < e.numSystemVars then some (.ofVar v)
  else
    match e.added[v - e.numSystemVars]? with
    | some (.product m) => some m
    | _ => none

/-- The clauses that make `out` the product of the factors of `m`: it implies each factor, and all factors together
imply it. -/
def productClauses (out : Var) (m : Monomial) : List Clause :=
  m.varList.map (fun x => [⟨out, false⟩, ⟨x, true⟩]) ++
    [m.varList.map (fun x => ⟨x, false⟩) ++ [⟨out, true⟩]]

/-- The variable of a monomial. A linear monomial must be a variable of the system. A product gets its variable when
it is first asked for, whatever its factors are, and keeps it for all later equations. -/
def monomialVar (e : Encoding) (m : Monomial) : Except EncodingError (Var × Encoding) :=
  match m.varList with
  | [v] => if v < e.numSystemVars then .ok (v, e) else .error (.outside v)
  | _ =>
    match e.added.idxOf? (.product m) with
    | some i => .ok (e.numSystemVars + i, e)
    | none =>
      let out := e.numVars
      .ok (out, { e with
        added := e.added ++ [.product m]
        definitions := e.definitions ++ productClauses out m })

/-- The variables of several monomials, in their order. The products among them that have none yet get the next
ones. -/
def monomialVars (e : Encoding) : List Monomial → Except EncodingError (List Var × Encoding)
  | [] => .ok ([], e)
  | m :: ms =>
    match e.monomialVar m with
    | .error err => .error err
    | .ok (v, e) =>
      match e.monomialVars ms with
      | .error err => .error err
      | .ok (vs, e) => .ok (v :: vs, e)

/-- Whether an equation is converted through the table: it is nonlinear and has few variables. -/
def usesTable (e : Encoding) (p : Polynomial) : Bool :=
  decide (1 < p.degree) && decide (p.vars.size ≤ e.tableCutoff)

/-- Adds clauses that hold exactly where `p` is zero. A nonlinear equation over few variables is converted through the
table, which is then used again for later equations. Any other equation becomes the sum of its monomials, where each
nonlinear monomial is tied to its factors by defining clauses, once for all equations. -/
def addEquation (e : Encoding) (p : Polynomial) : Except EncodingError Encoding :=
  if e.usesTable p then
    match e.table.convert p with
    | .error err => .error (.table err)
    | .ok (clauses, table) => .ok { e with table, equations := e.equations ++ [clauses] }
  else
    match e.monomialVars p.terms with
    | .error err => .error err
    | .ok (vars, e) =>
      match sumClauses? e.chunkLength e.numVars vars p.constantTerm with
      | none => .error .overflow
      | some (clauses, count) =>
        .ok { e with
          added := e.added ++ List.replicate count .partialSum
          equations := e.equations ++ [clauses] }

/-- Adds equations up to the first one that cannot be encoded. What was added before that one stays. -/
def addEquations (e : Encoding) : List Polynomial → Encoding × Option EncodingError
  | [] => (e, none)
  | p :: ps =>
    match e.addEquation p with
    | .ok e => e.addEquations ps
    | .error err => (e, some err)

/-- The encoding of every equation of a system, in the order in which they are stored. It fails with the first
equation that fails. -/
def ofSystem (s : EquationSystem) (config : Config) : Except EncodingError Encoding :=
  match new s config with
  | .error err => .error err
  | .ok e =>
    match e.addEquations s.equations with
    | (e, none) => .ok e
    | (_, some err) => .error err

/-- What a model says about the variables of the system. The values of products and partial sums are dropped, as they
follow from these. -/
def restrict (e : Encoding) (model : Array Bool) : Array (Option Bool) :=
  Array.ofFn fun v : Fin e.numSystemVars => model[v.val]?

end Encoding

end BoolPoly
