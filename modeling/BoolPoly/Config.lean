namespace BoolPoly

/-- The bounds that encoding and simplification work with. Nothing is checked when they are set: a capacity that is
not supported, and chunks that are too long, only come up when a system is encoded. -/
structure Config where
  /-- The most variables a Karnaugh table holds; converting a wider polynomial is an error. -/
  tableCapacity : Nat := 16
  /-- Nonlinear equations over at most this many variables are converted through a table. -/
  tableCutoff : Nat := 8
  /-- The most literals in one chunk of a XOR. -/
  chunkLength : Nat := 4
  /-- The conflict budget of the solver. -/
  maxConflicts : Nat := 100000
  verbosity : Nat := 0
deriving DecidableEq, Repr

end BoolPoly
