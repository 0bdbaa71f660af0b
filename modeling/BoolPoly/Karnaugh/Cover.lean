import BoolPoly.Karnaugh.Cube
import BoolPoly.PriorityQueue
import Std.Data.HashMap
import Std.Data.HashSet

open Std

namespace BoolPoly.Karnaugh

/-- A prime with the assignments of the on-set inside it, which are listed once so that the cube need not be gone
through again. -/
structure Candidate where
  cube : Cube
  covers : List UInt32

/-- A candidate with a bound for the number of uncovered assignments in it. Covering assignments only lowers that
number, so that a bound may be out of date but is never too small. -/
structure Scored where
  gain : Nat
  candidate : Candidate

/-- Greater gains come first, and among equal gains the smaller cube. -/
instance : Ord Scored :=
  ⟨fun s t => (compare t.gain s.gain).then (compare s.candidate.cube t.candidate.cube)⟩

/-- The number of assignments that the candidate would newly cover. It goes down as other candidates are taken. -/
def Candidate.gain (uncovered : HashSet UInt32) (c : Candidate) : Nat :=
  c.covers.countP uncovered.contains

/-- The uncovered assignments that stay uncovered beside `chosen`. -/
def uncover (uncovered : HashSet UInt32) (chosen : Candidate) : HashSet UInt32 :=
  chosen.covers.foldl HashSet.erase uncovered

/-- What a queued candidate can still cost: it is queued again only with a smaller gain. -/
def Scored.weight (s : Scored) : Nat := s.gain + 1

theorem weight_rest_lt {queue rest : PriorityQueue Scored} {best : Scored}
    (hpop : queue.pop? = some (best, rest)) : rest.weight Scored.weight < queue.weight Scored.weight := by
  rw [PriorityQueue.weight_of_pop? hpop]
  exact Nat.lt_add_of_pos_left (Nat.succ_pos best.gain)

theorem weight_requeue_lt {queue rest : PriorityQueue Scored} {best : Scored} {gain : Nat}
    (hpop : queue.pop? = some (best, rest)) (hgain : gain < best.gain) :
    (rest.insert ⟨gain, best.candidate⟩).weight Scored.weight < queue.weight Scored.weight := by
  rw [PriorityQueue.weight_of_pop? hpop, PriorityQueue.weight_insert]
  exact Nat.add_lt_add_right (Nat.succ_lt_succ hgain) _

/-- Takes candidates by their gains until none covers anything new: the one that covers the most uncovered
assignments, and the smallest one among equals. As the gain under which a candidate is queued is an upper bound, it is
enough to compute it anew when the candidate comes first: if it has become smaller, the candidate is queued again. -/
def takeBest (queue : PriorityQueue Scored) (uncovered : HashSet UInt32) : List Candidate :=
  match hpop : queue.pop? with
  | none => []
  | some (best, rest) =>
    have := weight_rest_lt hpop
    let gain := best.candidate.gain uncovered
    if gain = 0 then takeBest rest uncovered
    else if hgain : gain < best.gain then
      have := weight_requeue_lt hpop hgain
      takeBest (rest.insert ⟨gain, best.candidate⟩) uncovered
    else best.candidate :: takeBest rest (uncover uncovered best.candidate)
termination_by queue.weight Scored.weight

/-- How many candidates cover each assignment. An assignment that no candidate covers has no entry. -/
def coverCounts (candidates : List Candidate) : HashMap UInt32 Nat :=
  (candidates.flatMap Candidate.covers).foldl
    (fun counts m => counts.alter m fun n => some (n.getD 0 + 1)) ∅

/-- Whether the candidate is essential: it alone covers some assignment of the on-set, so that every cover by the
candidates contains it. -/
def Candidate.isEssential (counts : HashMap UInt32 Nat) (c : Candidate) : Bool :=
  c.covers.any fun m => counts[m]? == some 1

/-- The candidates for covering `on`, in the order of the primes. Assignments inside a prime that are not in `on` need
not be covered and are left out. -/
def candidates (primes : List Cube) (on : List UInt32) : List Candidate :=
  let members := HashSet.ofList on
  primes.map fun p => ⟨p, p.minterms.filter members.contains⟩

/-- A cover of the on-set by primes, in ascending order. The essential primes are taken first, and then the primes
that cover the most uncovered assignments until every assignment is covered. -/
def cover (primes : List Cube) (on : List UInt32) : List Cube :=
  let all := candidates primes on
  let counts := coverCounts all
  let (essential, others) := all.partition (·.isEssential counts)
  let uncovered := essential.foldl uncover (.ofList on)
  let scored := (others.map fun c => Scored.mk (c.gain uncovered) c).filter (0 < ·.gain)
  let chosen := essential ++ takeBest (.ofList scored) uncovered
  (chosen.map Candidate.cube).mergeSort fun c d => (compare c d).isLE

end BoolPoly.Karnaugh
