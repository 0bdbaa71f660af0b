import BoolPoly.Karnaugh.Cover
import BoolPoly.Karnaugh.PrimeImplicant
import BoolPoly.Polynomial

namespace BoolPoly.Karnaugh

/-- The greatest capacity that is supported. Cubes are packed into 32-bit words, which leaves some bits unused. -/
def maxCapacity : Nat := 24

/-- Why a table cannot be set up: it would be too great, or too small for a polynomial or a width. -/
inductive TableError where
  /-- A polynomial has more variables than the table holds. -/
  | capacityExceeded (poly : Polynomial) (numVars capacity : Nat)
  /-- The wanted capacity is above the greatest one supported. -/
  | unsupportedCapacity (capacity : Nat)
  /-- A table was reset to more variables than it holds. -/
  | widthExceeded (width capacity : Nat)
deriving DecidableEq

def TableError.message : TableError → String
  | capacityExceeded poly numVars capacity =>
    "Polynomial " ++ poly.text ++ " uses " ++ Nat.repr numVars ++ " variables but Karnaugh tables hold at most " ++
      Nat.repr capacity ++ "; raise the table capacity"
  | unsupportedCapacity capacity =>
    "Karnaugh table capacity " ++ Nat.repr capacity ++ " is above the supported maximum of " ++
      Nat.repr maxCapacity
  | widthExceeded width capacity =>
    "table width " ++ Nat.repr width ++ " exceeds capacity " ++ Nat.repr capacity

/-- A truth table over `width` variables, with room for `capacity` variables. The rows are kept in three groups: the
on-set, the off-set and rows whose output does not matter. The off-set may stay empty when every row outside the
on-set is known to be zero. -/
structure Table where
  capacity : Nat
  width : Nat
  on : List Cube
  off : List Cube
  dontCare : List Cube
  capacity_le : capacity ≤ maxCapacity
  width_le : width ≤ capacity

namespace Table

/-- The table without variables and rows. -/
def new (capacity : Nat) : Except TableError Table :=
  if h : capacity ≤ maxCapacity then
    .ok { capacity, width := 0, on := [], off := [], dontCare := [], capacity_le := h, width_le := Nat.zero_le _ }
  else .error (.unsupportedCapacity capacity)

/-- Clears all rows and sets the width, which must not exceed the capacity. -/
def reset (t : Table) (width : Nat) : Except TableError Table :=
  if h : width ≤ t.capacity then
    .ok { t with width, on := [], off := [], dontCare := [], width_le := h }
  else .error (.widthExceeded width t.capacity)

/-- Adds the row of an assignment, whose bit `i` is the value of table variable `i`. -/
def push (t : Table) (bits : UInt32) (output : Bool) : Table :=
  let row := Cube.ofBits t.width bits
  if output then { t with on := t.on ++ [row] } else { t with off := t.off ++ [row] }

/-- Adds the row of an assignment whose output does not matter, so that the cover may use it or not. -/
def pushDontCare (t : Table) (bits : UInt32) : Table :=
  { t with dontCare := t.dontCare ++ [Cube.ofBits t.width bits] }

/-- Replaces the on-set by a cover of prime implicants. Rows that do not matter may lie in an implicant but need not
be covered. -/
def minimize (t : Table) : Table :=
  { t with on := cover (primeImplicants t.width (t.on ++ t.dontCare)) (t.on.map Cube.value) }

/-- One line for each row, with its positions and its output, and a closing rule. -/
def text (t : Table) : String :=
  let lines (rows : List Cube) (output : String) : String :=
    String.join (rows.map fun c =>
      " ".intercalate ((c.cells t.width).map Cell.text) ++ " -- " ++ output ++ "\n")
  lines t.on "1" ++ lines t.off "0" ++ lines t.dontCare "-" ++ "--------------"

end Table

end BoolPoly.Karnaugh
