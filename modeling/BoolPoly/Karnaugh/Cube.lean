import BoolPoly.Karnaugh.Submask

open Std

namespace BoolPoly.Karnaugh

/-- One position of a table row. A wildcard stands for either value of the variable. -/
inductive Cell where
  | zero
  | one
  | dontCare
deriving DecidableEq, Repr

def Cell.text : Cell → String
  | zero => "0"
  | one => "1"
  | dontCare => "-"

/-- The word in which just the bit of table variable `i` is set. -/
def bit (i : Nat) : UInt32 := 1 <<< UInt32.ofNat i

/-- A set of assignments to the table variables, packed into two words with one bit for a variable. The bits of `free`
mark the variables that may have either value; the other bits of `value` are the values of the fixed variables. -/
structure Cube where
  value : UInt32
  free : UInt32
deriving DecidableEq, Repr

namespace Cube

/-- Cubes are ordered by their values and then by their free variables. -/
instance : Ord Cube := ⟨compareLex (compareOn Cube.value) (compareOn Cube.free)⟩

instance : TransOrd Cube :=
  inferInstanceAs (TransCmp (compareLex (compareOn Cube.value) (compareOn Cube.free)))

instance : LawfulEqOrd Cube where
  eq_of_compare {c d} h := by
    obtain ⟨hvalue, hfree⟩ := compareLex_eq_eq.1 h
    obtain ⟨v, f⟩ := c
    obtain ⟨w, g⟩ := d
    have hvw : v = w := LawfulEqOrd.eq_of_compare hvalue
    have hfg : f = g := LawfulEqOrd.eq_of_compare hfree
    rw [hvw, hfg]

/-- The cube of one assignment to the first `width` table variables: the other bits are dropped. -/
def ofBits (width : Nat) (bits : UInt32) : Cube := ⟨bits &&& (bit width - 1), 0⟩

def isFree (c : Cube) (i : Nat) : Bool := c.free &&& bit i != 0

def isSet (c : Cube) (i : Nat) : Bool := c.value &&& bit i != 0

/-- The cube with the value of a fixed variable reversed, its neighbour across this variable. -/
def flip (c : Cube) (i : Nat) : Cube := { c with value := c.value ^^^ bit i }

/-- The cube with a variable freed that was fixed to zero: its union with the neighbour across this variable. -/
def release (c : Cube) (i : Nat) : Cube := { c with free := c.free ||| bit i }

/-- The positions of the first `width` table variables, as they are printed. -/
def cells (width : Nat) (c : Cube) : List Cell :=
  (List.range width).map fun i =>
    if c.isFree i then .dontCare else if c.isSet i then .one else .zero

/-- The assignments inside the cube, its minterms, in ascending order. They are packed in the same way as the values
of a cube. -/
def minterms (c : Cube) : List UInt32 := (submasks c.free).map (c.value ||| ·)

end Cube

end BoolPoly.Karnaugh
