import BoolPoly.Polynomial
import Std.Data.ExtTreeMap

open Std

namespace BoolPoly

/-- What replaces a variable: another variable, or its negation. The other variable is smaller, and is not replaced
itself. -/
structure Replacement where
  root : Var
  inverted : Bool
deriving DecidableEq, Repr

/-- The polynomial that replaces the variable. -/
def Replacement.polynomial (r : Replacement) : Polynomial := .ofVar r.root + .constant r.inverted

/-- What an equation `p = 0` says when it can be recorded without keeping `p`. Such equations are taken out of the
system, and the others are rewritten by what they say. -/
inductive Fact where
  /-- The variable has the value. -/
  | value (v : Var) (b : Bool)
  /-- Every variable of the monomial is one. -/
  | allOne (m : Monomial)
  /-- The variable equals its replacement. -/
  | equal (v : Var) (r : Replacement)
deriving DecidableEq

/-- The fact stated by `p = 0`: `x + c` gives a value, `m + 1` makes all factors one, and `x + y + c` replaces the
greater variable by the smaller one. Any other polynomial states no fact, although facts may follow from it. -/
def Fact.ofPolynomial? (p : Polynomial) : Option Fact :=
  match p.terms with
  | [m] =>
    match m.varList with
    | [v] => some (.value v p.constantTerm)
    | _ => if p.constantTerm then some (.allOne m) else none
  | [m, n] =>
    match m.varList, n.varList with
    | [x], [y] => some (.equal (max x y) ⟨min x y, p.constantTerm⟩)
    | _, _ => none
  | _ => none

/-- Whether the variables of a polynomial can be counted: they are counted by a 32-bit word, and one more than the
greatest index must not overflow it. -/
def Polynomial.Countable (p : Polynomial) : Prop := ∀ v ∈ p.vars, v + 1 < UInt32.size

instance (p : Polynomial) : Decidable p.Countable :=
  inferInstanceAs (Decidable (∀ v ∈ p.vars.toList, v + 1 < UInt32.size))

/-- A system of equations `p = 0` with the facts known about its variables. A fact is a value of a variable or a
replacement of a variable by a smaller one or its negation. Facts are kept apart from the equations, and are put into
them until no equation states a fact any more; the equations are then about the remaining variables alone. -/
structure EquationSystem where
  /-- One more than the greatest variable index seen so far. It fits its word as long as only countable polynomials
      come in, see `addCounted?` and `learnCounted?`. -/
  numVars : Nat
  equations : List Polynomial
  values : ExtTreeMap Var Bool
  replacements : ExtTreeMap Var Replacement
  /-- False once the system has been found contradictory. -/
  consistent : Bool
deriving DecidableEq

namespace EquationSystem

/-- The system without equations. -/
def empty : EquationSystem :=
  { numVars := 0, equations := [], values := ∅, replacements := ∅, consistent := true }

instance : Inhabited EquationSystem := ⟨empty⟩

/-- The known value of a variable. -/
def value? (s : EquationSystem) (v : Var) : Option Bool := s.values[v]?

/-- The known replacement of a variable. -/
def replacement? (s : EquationSystem) (v : Var) : Option Replacement := s.replacements[v]?

/-- Every equation and fact as a polynomial that must be zero: the equations as stored, then the values and the
replacements, ascending by variable. The text of a system and the check of a solution go by this list. -/
def polynomials (s : EquationSystem) : List Polynomial :=
  s.equations ++
    s.values.toList.map (fun (v, b) => .ofVar v + .constant b) ++
    s.replacements.toList.map (fun (v, r) => .ofVar v + r.polynomial)

/-- Makes room for the variables of `p`. This happens before anything else, so that the room stays also when the
equation turns out to say nothing new. -/
def reserve (s : EquationSystem) (p : Polynomial) : EquationSystem :=
  { s with numVars := p.vars.toList.foldl (fun n v => max n (v + 1)) s.numVars }

/-- Puts what is known about a variable in its place: its value, or else what replaces it. -/
def resolveVar (s : EquationSystem) (p : Polynomial) (v : Var) : Polynomial :=
  match s.value? v with
  | some b => p.assign v b
  | none =>
    match s.replacement? v with
    | some r => p.substitute v r.polynomial
    | none => p

/-- Puts what is known about the variables of `p` in their places. One round is enough, as long as no root is replaced
or has a value. -/
def resolve (s : EquationSystem) (p : Polynomial) : Polynomial :=
  p.vars.toList.foldl s.resolveVar p

/-- Records a contradiction: the constant one becomes an equation, unless it is one already. The other equations and
the facts stay. -/
def refute (s : EquationSystem) : EquationSystem :=
  { s with
    consistent := false
    equations := if .one ∈ s.equations then s.equations else s.equations ++ [.one] }

/-- Records a value. Variables that were replaced by `v` get a value in turn, and are no longer replaced. -/
def assign (s : EquationSystem) (v : Var) (b : Bool) : EquationSystem :=
  let dependents := s.replacements.toList.filter fun (_, r) => r.root == v
  dependents.foldl
    (fun s (u, r) =>
      { s with values := s.values.insert u (b ^^ r.inverted), replacements := s.replacements.erase u })
    { s with values := s.values.insert v b }

/-- Records a replacement. Variables that were replaced by `v` are led on to its root, so that one step still leads to
a free variable. -/
def replace (s : EquationSystem) (v : Var) (r : Replacement) : EquationSystem :=
  let led := s.replacements.map fun _ old =>
    if old.root = v then ⟨r.root, old.inverted ^^ r.inverted⟩ else old
  { s with replacements := led.insert v r }

/-- Records a fact about variables that are neither assigned nor replaced. The equations are not touched; see
`propagate` for what follows. -/
def record (s : EquationSystem) : Fact → EquationSystem
  | .value v b => s.assign v b
  | .allOne m => m.varList.foldl (fun s v => s.assign v true) s
  | .equal v r => s.replace v r

/-- Where a pass over the equations stands: the system so far, with the equations kept already, and whether a fact was
recorded. -/
structure Pass where
  system : EquationSystem
  progress : Bool

/-- Takes one equation into account: it is dropped when it is known, recorded when it states a fact or a
contradiction, and kept with the facts put in otherwise. -/
def Pass.settle (pass : Pass) (equation : Polynomial) : Pass :=
  let s := pass.system
  let p := s.resolve equation
  if p.isZero then pass
  else if p.isOne then { pass with system := s.refute }
  else
    match Fact.ofPolynomial? p with
    | some fact => { system := s.record fact, progress := true }
    | none =>
      if p ∈ s.equations then pass
      else { pass with system := { s with equations := s.equations ++ [p] } }

/-- Takes every equation into account once, from the first to the last. A fact that is recorded on the way is put into
the equations behind it, but not into those before it. -/
def pass (s : EquationSystem) : Pass :=
  s.equations.foldl Pass.settle ⟨{ s with equations := [] }, false⟩

theorem equations_assign (s : EquationSystem) (v : Var) (b : Bool) : (s.assign v b).equations = s.equations := by
  simp only [assign]
  generalize s.replacements.toList.filter _ = dependents
  suffices h : ∀ t : EquationSystem, (dependents.foldl
      (fun s (u, r) => { s with
        values := s.values.insert u (b ^^ r.inverted), replacements := s.replacements.erase u }) t).equations =
      t.equations from h _
  induction dependents with
  | nil => intro t; rfl
  | cons d dependents ih => intro t; exact ih _

/-- Facts are recorded beside the equations. -/
theorem equations_record (s : EquationSystem) (fact : Fact) : (s.record fact).equations = s.equations := by
  cases fact with
  | value v b => exact equations_assign s v b
  | allOne m =>
    simp only [record]
    induction m.varList generalizing s with
    | nil => rfl
    | cons v vs ih => exact (ih _).trans (equations_assign s v true)
  | equal v r => rfl

theorem length_equations_refute (s : EquationSystem) : s.refute.equations.length ≤ s.equations.length + 1 := by
  simp only [refute]
  split <;> simp

/-- One equation leaves at most one equation behind, and none if a fact is recorded. -/
theorem Pass.length_settle (pass : Pass) (equation : Polynomial) :
    (pass.settle equation).system.equations.length + (pass.settle equation).progress.toNat ≤
      pass.system.equations.length + pass.progress.toNat + 1 := by
  simp only [settle]
  split
  · omega
  · split
    · have := length_equations_refute pass.system
      simp only
      omega
    · split
      · simp only [equations_record, Bool.toNat_true]
        omega
      · split
        · omega
        · simp only [List.length_append, List.length_singleton]
          omega

theorem length_foldl_settle (equations : List Polynomial) (start : Pass) :
    (equations.foldl Pass.settle start).system.equations.length +
        (equations.foldl Pass.settle start).progress.toNat ≤
      start.system.equations.length + start.progress.toNat + equations.length := by
  induction equations generalizing start with
  | nil => exact Nat.le_refl _
  | cons equation equations ih =>
    have hfirst := start.length_settle equation
    have hrest := ih (start.settle equation)
    simp only [List.foldl_cons, List.length_cons]
    omega

/-- A pass that records a fact leaves fewer equations, because the equation that states the fact is dropped and no
other one is added. -/
theorem length_equations_pass {s : EquationSystem} (hprogress : s.pass.progress = true) :
    s.pass.system.equations.length < s.equations.length := by
  have hlength := length_foldl_settle s.equations ⟨{ s with equations := [] }, false⟩
  have hcount : s.pass.progress.toNat = 1 := by rw [hprogress, Bool.toNat_true]
  simp only [pass, List.length_nil, Bool.toNat_false] at hlength hcount ⊢
  omega

/-- Puts the facts into the equations until a pass records no new one. A pass that is repeated has taken at least one
equation out of the system, so that the repetition comes to an end. -/
def propagate (s : EquationSystem) : EquationSystem :=
  if hprogress : s.pass.progress = true then
    have := length_equations_pass hprogress
    propagate s.pass.system
  else s.pass.system
termination_by s.equations.length

/-- Adds the equation `p = 0`. What is left of it under the facts is dropped when it is zero, recorded when it states
a fact or a contradiction, and stored otherwise. The answer tells whether the system has changed. -/
def add (s : EquationSystem) (p : Polynomial) : Bool × EquationSystem :=
  let s := s.reserve p
  let q := s.resolve p
  if q.isZero then (false, s)
  else if q.isOne then (true, s.refute)
  else
    match Fact.ofPolynomial? q with
    | some fact => (true, (s.record fact).propagate)
    | none =>
      if q ∈ s.equations then (false, s)
      else (true, { s with equations := s.equations ++ [q] })

/-- Takes over a derived equation `p = 0` if it says something new: a contradiction, a fact or a new linear equation.
Any other equation is dropped. The answer tells whether the system has changed. -/
def learn (s : EquationSystem) (p : Polynomial) : Bool × EquationSystem :=
  let s := s.reserve p
  let q := s.resolve p
  if q.isZero then (false, s)
  else if q.isOne then (true, s.refute)
  else
    match Fact.ofPolynomial? q with
    | some fact => (true, (s.record fact).propagate)
    | none =>
      if q.degree = 1 ∧ q ∉ s.equations then (true, { s with equations := s.equations ++ [q] })
      else (false, s)

/-- Adds the equation `p = 0`, provided that its variables can be counted. Arithmetic is checked: making room for the
variable of the greatest 32-bit index overflows, and there is no result. -/
def addCounted? (s : EquationSystem) (p : Polynomial) : Option (Bool × EquationSystem) :=
  if p.Countable then some (s.add p) else none

/-- Takes over a derived equation `p = 0`, provided that its variables can be counted, see `addCounted?`. -/
def learnCounted? (s : EquationSystem) (p : Polynomial) : Option (Bool × EquationSystem) :=
  if p.Countable then some (s.learn p) else none

end EquationSystem

end BoolPoly
