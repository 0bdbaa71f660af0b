import BoolPoly.Proofs.Simplify.Derived
import BoolPoly.Proofs.Solver.ProbingSolver

namespace BoolPoly.EquationSystem

/-- `t` is `s` after polynomials were learnt that are zero at every solution of `s`. The solutions are the same then,
and the facts have only grown. -/
structure Keeps (s t : EquationSystem) : Prop where
  valid : t.Valid
  grow : FactsGrow s t
  solves : ∀ a, Solves a t ↔ Solves a s
  numVars : t.numVars = s.numVars

theorem Keeps.refl {s : EquationSystem} (hs : s.Valid) : s.Keeps s := ⟨hs, .refl s, fun _ => Iff.rfl, rfl⟩

theorem Keeps.trans {s t u : EquationSystem} (hst : s.Keeps t) (htu : t.Keeps u) : s.Keeps u :=
  ⟨htu.valid, hst.grow.trans htu.grow, fun a => (htu.solves a).trans (hst.solves a), htu.numVars.trans hst.numVars⟩

/-- Whether a polynomial is about variables of the system and zero at every solution, so that learning it changes no
solution. -/
def Entails (s : EquationSystem) (p : Polynomial) : Prop :=
  (∀ v ∈ p.vars, v < s.numVars) ∧ ∀ a, Solves a s → p.eval a = false

theorem Keeps.entails {s t : EquationSystem} (h : s.Keeps t) {p : Polynomial} (hp : s.Entails p) : t.Entails p :=
  ⟨h.numVars.symm ▸ hp.1, fun a ha => hp.2 a ((h.solves a).1 ha)⟩

theorem Absorbs.keeps {s t : EquationSystem} {p : Polynomial} (h : s.Absorbs [p] t) (hvalid : t.Valid)
    (hp : s.Entails p) : s.Keeps t := by
  refine ⟨hvalid, h.grow, fun a => ?_, h.numVars⟩
  rw [h.solves, List.forall_mem_singleton]
  exact ⟨And.left, fun ha => ⟨ha, hp.2 a ha⟩⟩

variable {s : EquationSystem} {p : Polynomial}

theorem keeps_add (hs : s.Valid) (hp : s.Entails p) : s.Keeps (s.add p).2 := by
  have hintake := intake_add s p
  rw [reserve_of_lt hp.1] at hintake
  exact (hintake.absorbs hs.facts).keeps (hintake.valid hs hp.1) hp

theorem keeps_learn (hs : s.Valid) (hp : s.Entails p) : s.Keeps (s.learn p).2 := by
  have hintake := intake_learn s p
  rw [reserve_of_lt hp.1] at hintake
  rcases hintake with hintake | hdropped
  · exact (hintake.absorbs hs.facts).keeps (hintake.valid hs hp.1) hp
  · rw [hdropped]
    exact .refl hs

theorem keeps_learnAll (hs : s.Valid) {ps : List Polynomial} (hps : ∀ p ∈ ps, s.Entails p) :
    s.Keeps (s.learnAll ps).2 := by
  refine List.foldlRecOn (motive := fun learnt : Nat × EquationSystem => s.Keeps learnt.2) ps _ (.refl hs)
    fun learnt hlearnt p hp => ?_
  exact hlearnt.trans (keeps_learn hlearnt.valid (hlearnt.entails (hps p hp)))

variable {config : Config} {e : Encoding} {report : Report}

/-- At a solution the candidates of every stage are zero, also those that are offered after others were learnt,
because these have changed no solution. -/
theorem entails_of_mem_candidates (hs : s.Valid) (he : Encoding.ofSystem s config = .ok e)
    (hfacts : ∀ a, (queryOf e config).Holds a → report.Holds a) {t : EquationSystem} {stage : Stage}
    (hp : p ∈ e.candidates report t stage) : s.Entails p := by
  obtain ⟨hnum, -, h⟩ := hs.encoded he
  have hderived := Encoding.derived_of_mem_candidates h hp
  refine ⟨lt_of_mem_candidates hs he hp, fun a ha => ?_⟩
  obtain ⟨b, hab, hb⟩ := exists_model hs he ha
  rw [Polynomial.eval_congr fun v hv => hab v (hnum ▸ hderived.lt v hv)]
  exact hderived.zero (Encoding.holds_clauses.1 hb.clauses).1 (hfacts b hb)

theorem keeps_learnReport (hs : s.Valid) (he : Encoding.ofSystem s config = .ok e)
    (hfacts : ∀ a, (queryOf e config).Holds a → report.Holds a) : s.Keeps (s.learnReport e report).2 := by
  refine List.foldlRecOn (motive := fun learnt : Nat × EquationSystem => s.Keeps learnt.2) Stage.pipeline _
    (.refl hs) fun learnt hlearnt stage _ => ?_
  have hentails : ∀ p ∈ e.candidates report learnt.2 stage, learnt.2.Entails p := fun p hp =>
    hlearnt.entails (entails_of_mem_candidates hs he hfacts hp)
  exact hlearnt.trans (keeps_learnAll hlearnt.valid hentails)

/-- A query without models comes from a system without solutions, as every solution extends to a model. -/
theorem not_solves_of_unsat (hs : s.Valid) (he : Encoding.ofSystem s config = .ok e)
    (hquery : ∀ a, ¬(queryOf e config).Holds a) (a : Var → Bool) : ¬Solves a s := by
  intro ha
  obtain ⟨b, -, hb⟩ := exists_model hs he ha
  exact hquery b hb

theorem conclude_of_unsat (h : report.outcome = .unsat) (given : EquationSystem) :
    s.conclude given e report = ((s.add .one).2, .ok .unsat) := by
  simp only [conclude, h]

/-- Without a contradiction what was learnt stays, whatever becomes of the model. A model that fails a check is an
error, and the facts are kept in that case as well. -/
theorem system_conclude (h : report.outcome ≠ .unsat) (given : EquationSystem) :
    (s.conclude given e report).1 = (s.learnReport e report).2 := by
  rw [conclude]
  split
  · next hunsat => exact absurd hunsat h
  · dsimp only
    split <;> rfl

theorem keeps_conclude (hs : s.Valid) (he : Encoding.ofSystem s config = .ok e)
    (hreport : report.Implied (queryOf e config)) (given : EquationSystem) :
    s.Keeps (s.conclude given e report).1 := by
  by_cases hunsat : report.outcome = .unsat
  · have hnone := not_solves_of_unsat hs he (hreport.unsat hunsat)
    rw [conclude_of_unsat hunsat]
    exact keeps_add hs ⟨fun v hv => absurd hv Polynomial.not_mem_vars_constant, fun a ha => absurd ha (hnone a)⟩
  · rw [system_conclude hunsat]
    exact keeps_learnReport hs he hreport.facts

theorem keeps_simplify (hs : s.Valid) {solver : Solver} (hsolver : solver.Sound) (given : EquationSystem)
    (config : Config) : s.Keeps (s.simplify given config solver).system := by
  rw [simplify]
  split
  · split
    · exact .refl hs
    · next e he =>
      dsimp only
      split
      · exact .refl hs
      · next report hreport => exact keeps_conclude hs he (hsolver _ _ (bounded_queryOf hs he) hreport) given
  · exact .refl hs

/-- Simplification with a sound solver changes no solution, whatever the outcome. -/
theorem solves_simplify_iff (hs : s.Reachable) {solver : Solver} (hsolver : solver.Sound) (given : EquationSystem)
    (config : Config) (a : Var → Bool) : Solves a (s.simplify given config solver).system ↔ Solves a s :=
  (keeps_simplify hs.valid hsolver given config).solves a

/-- Products beside a replaced variable, which the clauses do not mention: the solutions are the same afterwards. -/
theorem solves_simplify_iff_replaced :
    let s := ofPolynomials [.sum [.ofVar 1, .ofVar 4, .one], .sum [.ofVars [1, 2], .ofVars [2, 3], .ofVar 5],
      .sum [.ofVars [1, 2, 3], .ofVar 2]]
    s.Reachable ∧ probingSolver.Sound ∧ ∀ a, Solves a (s.simplify s {} probingSolver).system ↔ Solves a s := by
  intro s
  have hs : s.Reachable := reachable_ofPolynomials (by decide)
  have hsolver : probingSolver.Sound := Decider.sound_solver Cnf.correct_solveUnder
  exact ⟨hs, hsolver, solves_simplify_iff hs hsolver s {}⟩

end BoolPoly.EquationSystem
