import BoolPoly.EquationSystem.Solution
import BoolPoly.Proofs.EquationSystem.Invariant

open Std

namespace BoolPoly

namespace EquationSystem

variable {s : EquationSystem} {solution : Solution} {a : Var → Bool}

theorem check_eq_ok (h : ∀ p ∈ s.polynomials, checkEquation solution p = .ok ()) : s.check solution = .ok () := by
  rw [check]
  generalize s.polynomials = ps at h
  induction ps with
  | nil => rfl
  | cons p ps ih =>
    obtain ⟨hp, hps⟩ := List.forall_mem_cons.1 h
    change (checkEquation solution p >>= fun _ => ps.forM (checkEquation solution)) = .ok ()
    rw [hp]
    exact ih hps

theorem lt_of_value? (hs : s.Bounded) {v : Var} {b : Bool} (h : s.value? v = some b) : v < s.numVars := by
  by_contra hge
  obtain ⟨hnone, -⟩ := hs.free (Nat.not_lt.1 hge)
  rw [hnone] at h
  cases h

theorem lt_of_replacement? (hs : s.Bounded) {v : Var} {r : Replacement} (h : s.replacement? v = some r) :
    v < s.numVars := by
  by_contra hge
  obtain ⟨-, hnone⟩ := hs.free (Nat.not_lt.1 hge)
  rw [hnone] at h
  cases h

/-- Everything that a system states is about its variables: its equations, the values that are known, and both
variables of a replacement. -/
theorem lt_of_mem_polynomials (hs : s.Valid) {p : Polynomial} (hp : p ∈ s.polynomials) {v : Var} (hv : v ∈ p.vars) :
    v < s.numVars := by
  rw [polynomials, List.mem_append, List.mem_append] at hp
  rcases hp with (hp | hp) | hp
  · exact hs.bounded.equation hp v hv
  · obtain ⟨⟨x, b⟩, hmem, rfl⟩ := List.mem_map.1 hp
    rcases Polynomial.mem_vars_add hv with hv | hv
    · rw [Polynomial.mem_vars_ofVar.1 hv]
      exact lt_of_value? hs.bounded (ExtTreeMap.mem_toList_iff_getElem?_eq_some.1 hmem)
    · exact absurd hv Polynomial.not_mem_vars_constant
  · obtain ⟨⟨x, r⟩, hmem, rfl⟩ := List.mem_map.1 hp
    have hx := ExtTreeMap.mem_toList_iff_getElem?_eq_some.1 hmem
    rcases Polynomial.mem_vars_add hv with hv | hv
    · rw [Polynomial.mem_vars_ofVar.1 hv]
      exact lt_of_replacement? hs.bounded hx
    · rw [Replacement.eq_root_of_mem_vars hv]
      exact Nat.lt_trans (hs.facts.root_lt hx) (lt_of_replacement? hs.bounded hx)

/-- A vector passes the check if it gives the variables the values they have in a solution. What it says about further
variables does not count. -/
theorem check_of_solves (hs : s.Valid) (ha : Solves a s)
    (hsolution : ∀ v, v < s.numVars → solution[v]? = some (a v)) : s.check solution = .ok () := by
  apply check_eq_ok
  intro p hp
  have heval : p.eval? (fun v => solution[v]?) = some (p.eval a) :=
    Polynomial.eval?_eq_some fun v hv => hsolution v (lt_of_mem_polynomials hs hp hv)
  rw [checkEquation, heval, ha p hp]

/-- Completing gives every variable the value it has in a solution, if the partial solution says so for the free ones.
The others follow by the facts, which the solution obeys. -/
theorem getElem?_extend (hs : s.Valid) (ha : Obeys a s) {given : Array (Option Bool)}
    (hgiven : ∀ v, v < s.numVars → s.Free v → given[v]?.join.getD false = a v) {v : Var} (hv : v < s.numVars) :
    (s.extend given)[v]? = some (a v) := by
  have hfree : ∀ x, x < s.numVars → s.replacement? x = none → s.freeValue given x = a x := by
    intro x hx hnone
    rw [freeValue]
    cases hvalue : s.value? x with
    | some b => exact (ha.value hvalue).symm
    | none => exact hgiven x hx ⟨hvalue, hnone⟩
  rw [extend, Array.getElem?_ofFn, dif_pos hv, completedValue]
  split
  · next r hr =>
    have hroot : r.root < s.numVars := Nat.lt_trans (hs.facts.root_lt hr) hv
    rw [hfree r.root hroot (hs.facts.root_free hr).2, ← ha.replacement hr]
  · next hnone => rw [hfree v hv hnone]

end EquationSystem

end BoolPoly
