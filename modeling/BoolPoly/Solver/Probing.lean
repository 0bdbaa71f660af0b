import BoolPoly.Cnf

namespace BoolPoly.Probing

/-- Answers whether the formula can hold together with additional assumptions, by a model if so. Facts are derived
from such questions: a literal is a unit if its negation cannot hold, and two literals are equivalent if they cannot
be set apart in either way. -/
abbrev Probe := List Literal → Option (Array Bool)

/-- The value of a variable in a model; false beyond its end, so that a model that is too short can be used as
well. -/
def valueAt (model : Array Bool) (v : Var) : Bool := model[v]?.getD false

/-- Where probing stands. The models met on the way save questions: a literal that is false in one of them is no unit,
and two variables that are set apart by two of them are neither equivalent nor opposite. -/
structure State where
  /-- How many questions may still be asked. -/
  budget : Nat
  /-- How many questions have been asked. -/
  asked : Nat
  /-- The models met after the first one, the latest one first. -/
  models : List (Array Bool)

/-- The state after a question and its answer. The question is paid from the budget, and a model that answers it is
kept. -/
def State.spend (s : State) (answer : Option (Array Bool)) : State :=
  { budget := s.budget - 1, asked := s.asked + 1, models := answer.toList ++ s.models }

/-- Finds the units among the listed variables. A variable that has the same value in all models is probed with the
opposite one. -/
def findUnits (probe : Probe) (first : Array Bool) : List Var → State → List Literal × State
  | [], s => ([], s)
  | v :: vs, s =>
    let value := valueAt first v
    if s.models.any fun m => valueAt m v != value then findUnits probe first vs s
    else if s.budget = 0 then ([], s)
    else
      let answer := probe [⟨v, !value⟩]
      let (units, rest) := findUnits probe first vs (s.spend answer)
      (if answer.isSome then units else ⟨v, value⟩ :: units, rest)

/-- Whether no two models set the variables apart: they agree in all models, or in none. -/
def together (first : Array Bool) (models : List (Array Bool)) (u v : Var) : Bool :=
  models.all fun m => (valueAt m u ^^ valueAt m v) == (valueAt first u ^^ valueAt first v)

/-- The next pair to be tested: the first variable that goes together with a smaller one, provided that the smallest
such variable has not yet been tested against it. -/
def nextPair? (first : Array Bool) (models : List (Array Bool)) (free : List Var)
    (tested : List (Var × Var)) : Option (Var × Var) :=
  free.findSome? fun v =>
    match free.find? fun u => together first models u v with
    | some u => if u = v ∨ (u, v) ∈ tested then none else some (u, v)
    | none => none

/-- The pairs of free variables that have not been tested. Their number bounds the search for equivalences. -/
def untested (free : List Var) (tested : List (Var × Var)) : List (Var × Var) :=
  (free.flatMap fun u => free.map fun v => (u, v)).filter fun pair => decide (pair ∉ tested)

theorem nextPair?_spec {first : Array Bool} {models : List (Array Bool)} {free : List Var}
    {tested : List (Var × Var)} {u v : Var} (h : nextPair? first models free tested = some (u, v)) :
    u ∈ free ∧ v ∈ free ∧ (u, v) ∉ tested := by
  obtain ⟨w, hw, hpair⟩ := List.exists_of_findSome?_eq_some h
  split at hpair
  · next x hx =>
    split at hpair
    · cases hpair
    · next hnot =>
      obtain ⟨rfl, rfl⟩ := Prod.mk.inj (Option.some.inj hpair)
      exact ⟨List.mem_of_find?_eq_some hx, hw, fun hmem => hnot (.inr hmem)⟩
  · cases hpair

/-- Testing a pair leaves fewer pairs to test. -/
theorem length_untested_lt {first : Array Bool} {models : List (Array Bool)} {free : List Var}
    {tested : List (Var × Var)} {pair : Var × Var} (h : nextPair? first models free tested = some pair) :
    (untested free (pair :: tested)).length < (untested free tested).length := by
  obtain ⟨u, v⟩ := pair
  obtain ⟨hu, hv, htested⟩ := nextPair?_spec h
  have hsplit : untested free ((u, v) :: tested) =
      (untested free tested).filter fun pair => decide (pair ≠ (u, v)) := by
    simp only [untested, List.filter_filter]
    refine List.filter_congr fun pair _ => ?_
    simp [Bool.and_comm]
  rw [hsplit]
  refine List.length_filter_lt_length_iff_exists.2 ⟨(u, v), ?_, by simp⟩
  refine List.mem_filter.2 ⟨List.mem_flatMap.2 ⟨u, hu, List.mem_map.2 ⟨v, hv, rfl⟩⟩, ?_⟩
  simpa using htested

/-- The assumptions under which `v` differs from what its relation to `u` in the first model demands, with the given
value of `u`. -/
def apart (u v : Var) (inverted b : Bool) : List Literal := [⟨u, b⟩, ⟨v, !(b ^^ inverted)⟩]

/-- Finds the equivalences among the free variables. A pair that goes together is probed with both ways of setting it
apart; a model found on the way sets it apart for good. -/
def findEquivalences (probe : Probe) (first : Array Bool) (free : List Var) (tested : List (Var × Var))
    (s : State) : List (Literal × Literal) × State :=
  match hpair : nextPair? first s.models free tested with
  | none => ([], s)
  | some (u, v) =>
    have := length_untested_lt hpair
    let inverted := valueAt first u ^^ valueAt first v
    if s.budget = 0 then ([], s)
    else
      let below := probe (apart u v inverted false)
      let s := s.spend below
      if below.isSome then findEquivalences probe first free ((u, v) :: tested) s
      else if s.budget = 0 then ([], s)
      else
        let above := probe (apart u v inverted true)
        let s := s.spend above
        let (found, s) := findEquivalences probe first free ((u, v) :: tested) s
        (if above.isSome then found else (⟨u, true⟩, ⟨v, !inverted⟩) :: found, s)
termination_by (untested free tested).length

/-- What probing has derived, and at what cost. -/
structure Findings where
  units : List Literal
  equivalences : List (Literal × Literal)
  /-- The number of questions asked. -/
  asked : Nat

/-- Probes the listed variables, starting from a first model: first for units, and then the others for equivalences.
Every question costs one unit of the budget, and what has been proved when the budget is used up is still reported. -/
def run (probe : Probe) (budget : Nat) (vars : List Var) (first : Array Bool) : Findings :=
  let (units, s) := findUnits probe first vars { budget, asked := 0, models := [] }
  let free := vars.filter fun v => !(units.map Literal.var).contains v
  let (equivalences, s) := findEquivalences probe first free [] s
  { units, equivalences, asked := s.asked }

end BoolPoly.Probing
