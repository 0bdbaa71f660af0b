import BoolPoly.Cnf

namespace BoolPoly.Cnf

/-- The formula under a true literal: clauses with it are gone, and its negation is gone from the others. -/
def assume (l : Literal) (f : Cnf) : Cnf :=
  (f.filter fun c => !c.contains l).map fun c => c.filter (· != l.negate)

def numLiterals (f : Cnf) : Nat := f.flatten.length

theorem length_filter_ne_lt {l : Literal} {c : Clause} (h : l ∈ c) :
    (c.filter (· != l)).length < c.length := by
  refine List.length_filter_lt_length_iff_exists.2 ⟨l, h, ?_⟩
  simp

theorem numLiterals_assume_le (l : Literal) (f : Cnf) : (f.assume l).numLiterals ≤ f.numLiterals := by
  induction f with
  | nil => exact Nat.le_refl _
  | cons c f ih =>
    have hc := List.length_filter_le (· != l.negate) c
    simp only [assume, numLiterals, List.filter_cons] at ih ⊢
    split
    · simp only [List.map_cons, List.flatten_cons, List.length_append]
      omega
    · simp only [List.flatten_cons, List.length_append]
      omega

/-- Fixing a variable that occurs leaves fewer literals. -/
theorem numLiterals_assume_lt {l k : Literal} {f : Cnf} {c : Clause} (hc : c ∈ f) (hk : k ∈ c)
    (hvar : k.var = l.var) : (f.assume l).numLiterals < f.numLiterals := by
  have hcases : k = l ∨ k = l.negate := by
    obtain ⟨v, b⟩ := k
    obtain ⟨w, d⟩ := l
    obtain rfl : v = w := hvar
    cases b <;> cases d <;> simp [Literal.negate]
  induction f with
  | nil => cases hc
  | cons e f ih =>
    have hle := numLiterals_assume_le l f
    have he := List.length_filter_le (· != l.negate) e
    simp only [assume, numLiterals, List.filter_cons] at ih hle ⊢
    rcases List.mem_cons.1 hc with rfl | hc
    · rcases hcases with rfl | rfl
      · have hpos := List.length_pos_of_mem hk
        rw [List.contains_eq_mem, decide_eq_true hk]
        simp only [Bool.not_true, Bool.false_eq_true, if_false, List.flatten_cons, List.length_append]
        omega
      · have hlt := length_filter_ne_lt hk
        split
        · simp only [List.map_cons, List.flatten_cons, List.length_append]
          omega
        · simp only [List.flatten_cons, List.length_append]
          omega
    · have ih := ih hc
      split
      · simp only [List.map_cons, List.flatten_cons, List.length_append]
        omega
      · simp only [List.flatten_cons, List.length_append]
        omega

/-- The literal of the first unit clause. -/
def unit? (f : Cnf) : Option Literal :=
  f.findSome? fun c =>
    match c with
    | [l] => some l
    | _ => none

/-- The least variable that occurs. -/
def leastVar? (f : Cnf) : Option Var := (f.flatten.map Literal.var).min?

theorem numLiterals_assume_unit {f : Cnf} {l : Literal} (h : f.unit? = some l) :
    (f.assume l).numLiterals < f.numLiterals := by
  obtain ⟨c, hc, hl⟩ := List.exists_of_findSome?_eq_some h
  split at hl
  · next k =>
    obtain rfl : k = l := Option.some.inj hl
    exact numLiterals_assume_lt hc (List.mem_singleton_self k) rfl
  · cases hl

theorem numLiterals_assume_least {f : Cnf} {v : Var} (h : f.leastVar? = some v) (b : Bool) :
    (f.assume ⟨v, b⟩).numLiterals < f.numLiterals := by
  obtain ⟨k, hk, hkv⟩ := List.mem_map.1 (List.min?_mem h)
  obtain ⟨c, hc, hkc⟩ := List.mem_flatten.1 hk
  exact numLiterals_assume_lt hc hkc hkv

/-- Literals that satisfy the formula when all of them hold; none if it is unsatisfiable. A unit clause is obeyed;
without one, both values of the least variable are tried. In the clauses of a system the least variables are those of
the system itself, and their values force the others, so that the search branches on them alone. Every step fixes a
variable that occurs, and the number of literals left bounds the search. -/
def search (f : Cnf) : Option (List Literal) :=
  if [] ∈ f then none
  else
    match hunit : f.unit? with
    | some l =>
      have := numLiterals_assume_unit hunit
      (search (f.assume l)).map (l :: ·)
    | none =>
      match hleast : f.leastVar? with
      | none => some []
      | some v =>
        have := numLiterals_assume_least hleast true
        have := numLiterals_assume_least hleast false
        match search (f.assume ⟨v, true⟩) with
        | some ls => some (⟨v, true⟩ :: ls)
        | none => (search (f.assume ⟨v, false⟩)).map (⟨v, false⟩ :: ·)
termination_by f.numLiterals

/-- The assignment to `numVars` variables in which just the variables of positive literals are true. -/
def modelOf (numVars : Nat) (ls : List Literal) : Array Bool :=
  Array.ofFn fun v : Fin numVars => ls.contains ⟨v, true⟩

/-- A model of the formula under assumptions, if there is one. -/
def solveUnder (numVars : Nat) (f : Cnf) (assumptions : List Literal) : Option (Array Bool) :=
  (search (assumptions.map ([·]) ++ f)).map (modelOf numVars)

/-- A model over the variables of the formula, if there is one. -/
def solve (f : Cnf) : Option (Array Bool) := f.solveUnder f.numVars []

end BoolPoly.Cnf
