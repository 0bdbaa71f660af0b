import BoolPoly.Monomial
import BoolPoly.Parity

open Std

namespace BoolPoly

/-- A Boolean polynomial in algebraic normal form: a sum modulo two of distinct monomials, given by their set. Adding
a monomial that is already there cancels it, so that a set is the only form of its polynomial. -/
structure Polynomial where
  monomials : OrderedSet Monomial
deriving DecidableEq

namespace Polynomial

/-- Polynomials are ordered lexicographically by their ascending monomials. -/
instance : Ord Polynomial := ⟨compareOn fun p => p.monomials.toList⟩

instance : TransOrd Polynomial :=
  inferInstanceAs (TransCmp (compareOn fun p : Polynomial => p.monomials.toList))

instance : LawfulEqOrd Polynomial where
  eq_of_compare {p q} h := by
    have hlist : p.monomials.toList = q.monomials.toList := LawfulEqOrd.eq_of_compare h
    obtain ⟨s⟩ := p
    obtain ⟨t⟩ := q
    exact congrArg Polynomial.mk (OrderedSet.ext_toList hlist)

/-- The sum over no monomial. -/
def zero : Polynomial := ⟨.empty⟩

instance : Inhabited Polynomial := ⟨zero⟩

def ofMonomial (m : Monomial) : Polynomial := ⟨.singleton m⟩

def ofVar (v : Var) : Polynomial := ofMonomial (.ofVar v)

/-- The polynomial of a constant: the empty sum for zero, and the product over no variable for one. -/
def constant (b : Bool) : Polynomial := if b then ofMonomial .one else zero

def one : Polynomial := constant true

/-- The sum of the listed monomials: equal monomials cancel in pairs, wherever they stand. -/
def sum (ms : List Monomial) : Polynomial := ⟨.toggleAll ms .empty⟩

/-- The monomials in ascending order, the constant first. -/
def monomialList (p : Polynomial) : List Monomial := p.monomials.toList

/-- The monomials other than the constant, in ascending order. These are what an encoding gives variables to. -/
def terms (p : Polynomial) : List Monomial := p.monomialList.filter fun m => !m.isOne

def isZero (p : Polynomial) : Bool := p.monomials.isEmpty

/-- Whether the constant one is among the monomials. -/
def constantTerm (p : Polynomial) : Bool := decide (Monomial.one ∈ p.monomials)

/-- Whether the polynomial is the constant one. As an equation this is a contradiction. -/
def isOne (p : Polynomial) : Bool := p.monomials.size == 1 && p.constantTerm

/-- The number of monomials. -/
def size (p : Polynomial) : Nat := p.monomials.size

/-- The greatest degree of a monomial; zero for both constants. -/
def degree (p : Polynomial) : Nat := p.monomialList.foldr (fun m d => max m.degree d) 0

/-- The variables that occur in some monomial, each of them once. A variable whose monomials have cancelled is not
among them. -/
def vars (p : Polynomial) : OrderedSet Var := .ofList (p.monomialList.flatMap Monomial.varList)

/-- The sum with one more monomial. -/
def addMonomial (p : Polynomial) (m : Monomial) : Polynomial := ⟨p.monomials.toggle m⟩

instance : Add Polynomial := ⟨fun p q => ⟨p.monomials.symmDiff q.monomials⟩⟩

/-- Multiplies every monomial by `m`; products that coincide cancel. -/
def mulMonomial (p : Polynomial) (m : Monomial) : Polynomial := sum (p.monomialList.map (· * m))

/-- Fixes `v` to the value `b`: the monomials with `v` lose this factor, or are dropped. Monomials that coincide then
cancel. -/
def assign (p : Polynomial) (v : Var) (b : Bool) : Polynomial :=
  sum (p.monomialList.filterMap fun m =>
    if m.contains v then (if b then some (m.without v) else none) else some m)

/-- Puts `r` in the place of `v`: every monomial with `v` is multiplied out. If `r` has `v` in it, the result may have
it, too. -/
def substitute (p : Polynomial) (v : Var) (r : Polynomial) : Polynomial :=
  sum (p.monomialList.flatMap fun m =>
    if m.contains v then r.monomialList.map (m.without v * ·) else [m])

/-- The value under a total assignment. -/
def eval (a : Var → Bool) (p : Polynomial) : Bool := parity (p.monomialList.map (Monomial.eval a))

/-- The value under a partial assignment; every variable of every monomial has to be bound. -/
def eval? (a : Var → Option Bool) (p : Polynomial) : Option Bool :=
  (p.monomialList.mapM (Monomial.eval? a)).map parity

/-- The monomials in the order of writing: higher degrees first, and lexicographically within a degree, because
sorting keeps the order of monomials of equal degree. -/
def written (p : Polynomial) : List Monomial :=
  p.monomialList.mergeSort fun m n => decide (n.degree ≤ m.degree)

/-- The monomials joined by ` + `; the empty sum is written as `0`. -/
def text (p : Polynomial) : String :=
  if p.isZero then "0" else " + ".intercalate (p.written.map Monomial.text)

instance : ToString Polynomial := ⟨text⟩

end Polynomial

end BoolPoly
