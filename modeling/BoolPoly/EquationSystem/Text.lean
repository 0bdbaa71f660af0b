import BoolPoly.Polynomial.Text
import BoolPoly.EquationSystem.Basic

namespace BoolPoly.EquationSystem

/-- Why a text is no system: the line that is not UTF-8, that holds no polynomial or whose variables cannot be
counted. -/
inductive ParseError where
  /-- A line is not valid UTF-8. -/
  | unreadable
  /-- The polynomial on a line, counted from one, is malformed. -/
  | malformed (line : Nat) (cause : Polynomial.ParseError)
  /-- The variables of the polynomial on a line cannot be counted. -/
  | overflow
deriving DecidableEq, Repr

def ParseError.message : ParseError → String
  | unreadable => "Unable to read ANF input"
  | malformed line _ => "Malformed polynomial on line " ++ Nat.repr line
  | overflow => "attempt to add with overflow"

/-- The messages of the causes, the nearest one first. -/
def ParseError.causes : ParseError → List String
  | unreadable => ["stream did not contain valid UTF-8"]
  | malformed _ cause => cause.message :: cause.cause?.toList.map Text.NumberError.message
  | overflow => []

/-- Whether a line, without the blanks around it, holds no polynomial. -/
def isSkipped (cs : List Char) : Bool := cs.isEmpty || cs.head? == some 'c'

/-- Adds the polynomial on one line; `none` stands for a line that could not be decoded. -/
def addLine (s : EquationSystem) (line : Option (List Char) × Nat) : Except ParseError EquationSystem :=
  match line.1 with
  | none => .error .unreadable
  | some cs =>
    let cs := Text.trim cs
    if isSkipped cs then .ok s
    else
      match Polynomial.ofChars cs with
      | .ok p =>
        match s.addCounted? p with
        | some (_, s) => .ok s
        | none => .error .overflow
      | .error cause => .error (.malformed line.2 cause)

/-- Adds the polynomials on numbered lines, up to the first line that is none. -/
def addLines (s : EquationSystem) :
    List (Option (List Char) × Nat) → EquationSystem × Option ParseError
  | [] => (s, none)
  | line :: rest =>
    match s.addLine line with
    | .ok s => s.addLines rest
    | .error e => (s, some e)

/-- Reads lines, counted from one, and keeps what came before a line that cannot be read. -/
def readLines (lines : List (Option (List Char))) : EquationSystem × Option ParseError :=
  empty.addLines (lines.zipIdx 1)

/-- Reads a system from its lines, the polynomials of which are added in their order. The first line that cannot be
read ends the reading. -/
def ofLines (lines : List (Option (List Char))) : Except ParseError EquationSystem :=
  match readLines lines with
  | (s, none) => .ok s
  | (_, some e) => .error e

/-- Reads a system from text. There is one polynomial on each line; blank lines and lines that start with `c` are
skipped. -/
def ofText (s : String) : Except ParseError EquationSystem := ofLines ((s.toList.splitOn '\n').map some)

/-- The characters of a line given as bytes. -/
def decodeLine (bytes : List UInt8) : Option (List Char) :=
  (String.fromUTF8? ⟨bytes.toArray⟩).map String.toList

/-- The lines of a text given as bytes. -/
def decodeLines (bytes : List UInt8) : List (Option (List Char)) :=
  (bytes.splitOn 0x0A).map decodeLine

/-- Reads a system from bytes. Each line is decoded by itself, so that an earlier malformed polynomial is reported
before a later line that is not UTF-8. -/
def ofBytes (bytes : List UInt8) : Except ParseError EquationSystem := ofLines (decodeLines bytes)

/-- Every equation and fact on a line of its own, as a polynomial. Reading the text gives the system back, up to room
for variables that do not occur. -/
def text (s : EquationSystem) : String := String.join (s.polynomials.map fun p => p.text ++ "\n")

instance : ToString EquationSystem := ⟨text⟩

end BoolPoly.EquationSystem
