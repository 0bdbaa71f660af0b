import BoolPoly.Polynomial
import BoolPoly.Text.Blank
import BoolPoly.Text.Index

namespace BoolPoly.Polynomial

open Text (NumberError)

/-- Why a text is no polynomial. The first term or factor that is not understood is reported. -/
inductive ParseError where
  /-- Nothing stands between two plus signs. -/
  | emptyTerm
  /-- A factor is neither a constant nor a variable. -/
  | unexpectedToken (factor : String)
  /-- A factor starts like a variable, but what follows is no index. -/
  | badVariable (factor : String) (cause : NumberError)
deriving DecidableEq, Repr

def ParseError.message : ParseError → String
  | emptyTerm => "Empty term in polynomial"
  | unexpectedToken factor => "Unexpected token '" ++ factor ++ "' in polynomial"
  | badVariable factor _ => "Malformed variable '" ++ factor ++ "'"

/-- The error that made a variable unreadable. -/
def ParseError.cause? : ParseError → Option NumberError
  | badVariable _ cause => some cause
  | _ => none

/-- Indices fit a 32-bit word. -/
def indexBound : Nat := UInt32.size

/-- Reads what follows the `x` of a variable. Opening parentheses in front and closing ones behind are dropped,
however many there are. -/
def readIndex (cs : List Char) : Except NumberError Var :=
  Text.readNumber indexBound (Text.trimEnd (· == ')') (cs.dropWhile (· == '(')))

/-- Reads one factor, as a polynomial of one or no monomial: `0` vanishes and `1` is neutral. -/
def readFactor (cs : List Char) : Except ParseError (Option Monomial) :=
  match cs with
  | ['0'] => .ok none
  | ['1'] => .ok (some .one)
  | 'x' :: index =>
    match readIndex index with
    | .ok v => .ok (some (.ofVar v))
    | .error cause => .error (.badVariable (String.ofList cs) cause)
  | _ => .error (.unexpectedToken (String.ofList cs))

/-- The product of factors, where `none` stands for zero. -/
def product (factors : List (Option Monomial)) : Option Monomial :=
  factors.foldr (fun factor rest => do return (← factor) * (← rest)) (some .one)

/-- Reads one term. Every factor is checked, also beside a factor zero, so that a text with an error in it is refused
whatever its value would be. -/
def readTerm (cs : List Char) : Except ParseError (Option Monomial) :=
  if cs.isEmpty then .error .emptyTerm
  else do
    let factors ← ((cs.splitOn '*').map Text.trim).mapM readFactor
    return product factors

/-- Reads a polynomial that fills the whole text. Terms are separated by plus signs and factors by asterisks, with
blanks around them that do not count. -/
def ofChars (cs : List Char) : Except ParseError Polynomial := do
  let terms ← ((cs.splitOn '+').map Text.trim).mapM readTerm
  return sum (terms.filterMap id)

/-- Reads a polynomial that fills the whole text, such as `x1*x2 + x3 + 1`. A polynomial is a sum of terms, a term a
product of factors, and a factor is `0`, `1`, `x` with an index, or `x` with an index in parentheses. Blanks may
surround terms and factors. -/
def ofText (s : String) : Except ParseError Polynomial := ofChars s.toList

end BoolPoly.Polynomial
