import BoolPoly.Karnaugh.Cube
import Std.Data.TreeSet

open Std

namespace BoolPoly.Karnaugh

/-- Cubes with equally many free variables. Two cubes of a level that differ in one fixed variable merge into a cube
of the next level; a cube without such a neighbour is prime. -/
abbrev Level := TreeSet Cube

/-- The cubes of the level that merge with no other cube of it. Both neighbours across a fixed variable are looked
up. -/
def Level.primes (width : Nat) (level : Level) : List Cube :=
  level.toList.filter fun c => (List.range width).all fun i => c.isFree i || !level.contains (c.flip i)

/-- The cubes that arise by merging two cubes of the level. The one of the two in which the variable is zero already
carries the value of the result. -/
def Level.merged (width : Nat) (level : Level) : Level :=
  .ofList (level.toList.flatMap fun c =>
    (List.range width).filterMap fun i =>
      if !c.isFree i && !c.isSet i && level.contains (c.flip i) then some (c.release i) else none)

/-- The primes of a level and of the `steps` levels above it. Each step frees one more variable, so that `width` steps
reach every cube. -/
def primesFrom (width : Nat) : Nat → Level → List Cube
  | 0, level => level.primes width
  | steps + 1, level => level.primes width ++ primesFrom width steps (level.merged width)

/-- The prime implicants of a set of assignments to `width` variables: merging frees one variable at a time, so
nothing is left to merge after `width` levels. -/
def primeImplicants (width : Nat) (minterms : List Cube) : List Cube :=
  primesFrom width width (.ofList minterms)

end BoolPoly.Karnaugh
