import BoolPoly.Proofs.Solver.Probing
import BoolPoly.Proofs.Solver.Search
import BoolPoly.Proofs.Solver.XorRecovery
import BoolPoly.Solver.ProbingSolver

namespace BoolPoly

open Probing (valueAt)

/-- Whether the procedure finds a model of clauses and assumptions exactly when there is one. Which model it finds is
open, and may depend on the question in any way. -/
structure Decider.Correct (decide : Decider) : Prop where
  model : ∀ {n : Nat} {f : Cnf} {assumptions : List Literal} {model : Array Bool}, f.Below n →
    (∀ l ∈ assumptions, l.var < n) → decide n f assumptions = some model → HoldsUnder (valueAt model) f assumptions
  none : ∀ {n : Nat} {f : Cnf} {assumptions : List Literal}, f.Below n → (∀ l ∈ assumptions, l.var < n) →
    decide n f assumptions = none → ∀ a, ¬HoldsUnder a f assumptions

theorem valueAt_modelOf {n : Nat} (ls : List Literal) :
    AgreeBelow n (valueAt (Cnf.modelOf n ls)) (Cnf.assignmentOf ls) := by
  intro v hv
  rw [valueAt, Cnf.modelOf, Array.getElem?_ofFn, dif_pos hv]
  rfl

theorem holds_map_singleton_append {a : Var → Bool} {f : Cnf} {assumptions : List Literal} :
    Cnf.holds a (assumptions.map ([·]) ++ f) = true ↔ HoldsUnder a f assumptions := by
  rw [Cnf.holds_append, Cnf.holds_iff, List.forall_mem_map]
  simp only [Clause.holds, List.any_cons, List.any_nil, Bool.or_false]
  exact ⟨fun h => ⟨h.2, h.1⟩, fun h => ⟨h.2, h.1⟩⟩

/-- The complete search finds a model exactly when there is one, so that it can serve as the decision procedure. -/
theorem Cnf.correct_solveUnder : Decider.Correct Cnf.solveUnder where
  model {n f assumptions model} hf hassumptions h := by
    obtain ⟨ls, hls, rfl⟩ := Option.map_eq_some_iff.1 h
    have hbelow : Cnf.Below n (assumptions.map ([·]) ++ f) := by
      refine Cnf.below_append.2 ⟨fun c hc l hl => ?_, hf⟩
      obtain ⟨k, hk, rfl⟩ := List.mem_map.1 hc
      rw [List.mem_singleton.1 hl]
      exact hassumptions k hk
    rw [← holds_map_singleton_append, Cnf.holds_congr hbelow (valueAt_modelOf ls)]
    exact (Cnf.search_sound hls).holds
  none _ _ h a := by
    rw [← holds_map_singleton_append]
    exact Cnf.search_complete (Option.map_eq_none_iff.1 h) a

namespace Decider

variable {decide : Decider} {q : Query}

theorem Correct.refutes (hdecide : decide.Correct) (hq : q.Bounded) :
    Probing.Refutes (fun extra => decide q.numVars q.clauses (q.assumptions ++ extra)) q.numVars (q.Holds ·) := by
  intro extra hextra hnone a ha hholds
  refine hdecide.none hq.clauses ?_ hnone a ⟨ha.clauses, ?_⟩
  · exact List.forall_mem_append.2 ⟨hq.assumptions, hextra⟩
  · exact List.forall_mem_append.2 ⟨ha.assumptions, hholds⟩

/-- All that the probing solver reports follows from the query, on any correct decision procedure and for every
budget. -/
theorem sound_solver (hdecide : decide.Correct) : decide.solver.Sound := by
  intro q r hq h
  cases hanswer : decide q.numVars q.clauses q.assumptions with
  | none =>
    rw [solver_of_none hanswer] at h
    cases h
    have hno := hdecide.none hq.clauses hq.assumptions hanswer
    exact ⟨fun a ha => absurd ha (hno a), fun _ => hno⟩
  | some model =>
    rw [solver_of_some hanswer] at h
    cases h
    refine ⟨fun a ha => ?_, nofun⟩
    have hvars : ∀ v ∈ q.unassumed, v < q.numVars := fun v hv => List.mem_range.1 (List.mem_filter.1 hv).1
    obtain ⟨hunits, hequivalences⟩ := Probing.run_sound (hdecide.refutes hq) hvars q.maxConflicts ha
    refine ⟨hunits, hequivalences, ?_, ?_⟩
    · exact fun x hx => XorRecovery.holds_of_mem_relations ha.clauses hx
    · exact fun x hx => XorRecovery.holds_of_mem_combinations ha.clauses hx

end Decider

end BoolPoly
