import BoolPoly.Proofs.Simplify.Decision

namespace BoolPoly

open Probing (valueAt)

/-- What a solver promises: its facts follow from the query, whatever the verdict, and a satisfiable query comes with
a model. A solver may stop without a verdict. -/
structure Solver.Promises (solver : Solver) : Prop where
  facts : ∀ {q r}, q.Bounded → solver q = .ok r → ∀ a, q.Holds a → r.Holds a
  model : ∀ {q r}, q.Bounded → solver q = .ok r → r.outcome = .sat →
    ∃ model, r.model = some model ∧ q.Holds (valueAt model)

/-- The solver that knows the answer to one query, and fails on every other one. -/
def Solver.answering (known : Query) (report : Report) : Solver := fun q =>
  if q = known then .ok report else .error (.failed "")

theorem Solver.promises_answering {known : Query} {report : Report} (hfacts : ∀ a, known.Holds a → report.Holds a)
    (houtcome : report.outcome ≠ .sat) : (Solver.answering known report).Promises := by
  constructor
  · intro q r _ hr a ha
    rw [Solver.answering] at hr
    split at hr
    · next hq =>
      subst hq
      cases hr
      exact hfacts a ha
    · cases hr
  · intro q r _ hr hsat
    rw [Solver.answering] at hr
    split at hr
    · cases hr
      exact absurd hsat houtcome
    · cases hr

namespace EquationSystem

variable {s given : EquationSystem} {config : Config} {solver : Solver}

theorem consistent_add_one (s : EquationSystem) : (s.add .one).2.consistent = false := by
  have hone : (s.reserve .one).resolve .one = .one := resolve_one
  have hzero : Polynomial.one.isZero = false := by decide
  have hisOne : Polynomial.one.isOne = true := by decide
  simp only [add, hone, hzero, hisOne, if_true, Bool.false_eq_true, if_false]
  rfl

/-- Whether the solver, without a verdict, reports facts that contradict the system. Learning them clears the flag,
and the answer is still the number of facts. -/
def Overlooks (s : EquationSystem) (config : Config) (solver : Solver) : Prop :=
  s.consistent = true ∧ ∃ e report, Encoding.ofSystem s config = .ok e ∧ solver (queryOf e config) = .ok report ∧
    report.outcome = .undetermined ∧ (s.learnReport e report).2.consistent = false

theorem conclude_undetermined {e : Encoding} {report : Report} (h : report.outcome = .undetermined) :
    s.conclude given e report =
      ((s.learnReport e report).2, .ok (.learnt (s.learnReport e report).1 none)) := by
  simp only [conclude, h]

/-- A solution that is found keeps the system consistent: the facts hold there, so they cannot contradict the
system. -/
theorem consistent_learnReport (hs : s.Valid) {e : Encoding} (he : Encoding.ofSystem s config = .ok e)
    {report : Report} (hfacts : ∀ a, (queryOf e config).Holds a → report.Holds a) {a : Var → Bool}
    (ha : (queryOf e config).Holds a) : (s.learnReport e report).2.consistent = true := by
  have hkeeps := keeps_learnReport hs he hfacts
  exact ((hkeeps.solves _).2 (solves_repair hs he ha)).consistent hkeeps.valid

theorem learnReport_of_unit {e : Encoding} {l : Literal} {p : Polynomial} {report : Report}
    (hreport : report = ⟨.undetermined, none, [l], [], [], []⟩) (h : e.unitPolynomial? l = some p) :
    s.learnReport e report = ((s.learn p).1.toNat, (s.learn p).2) := by
  subst hreport
  simp [learnReport, Stage.pipeline, learnAll, Encoding.candidates, h]

/-- Whether the answer and the flag agree about a contradiction. The answer is taken from the solver's verdict
alone. -/
def Agrees (attempt : Attempt) (answer : Simplified) : Prop :=
  answer = .unsat ↔ attempt.system.consistent = false

theorem simplify_of_inconsistent (h : s.consistent = false) :
    s.simplify given config solver = { system := s, query? := none, result := .ok .unsat } := by
  rw [simplify, if_neg (by simp [h])]

theorem simplify_of_report (h : s.consistent = true) {e : Encoding} (he : Encoding.ofSystem s config = .ok e)
    {report : Report} (hreport : solver (queryOf e config) = .ok report) : s.simplify given config solver =
      { system := (s.conclude given e report).1
        query? := some (queryOf e config)
        result := (s.conclude given e report).2 } := by
  simp only [simplify, h, if_true, he, hreport]

theorem exists_report (h : s.consistent = true) {answer : Simplified}
    (hresult : (s.simplify given config solver).result = .ok answer) :
    ∃ e report, Encoding.ofSystem s config = .ok e ∧ solver (queryOf e config) = .ok report := by
  rw [simplify, if_pos h] at hresult
  split at hresult
  · cases hresult
  · next e he =>
    dsimp only at hresult
    split at hresult
    · cases hresult
    · next report hreport => exact ⟨e, report, he, hreport⟩

/-- What the answer and the flag are, by the solver's verdict. Without a verdict the flag is what learning the
reported facts has left, whatever the answer says. -/
theorem answer_cases (hs : s.Valid) (hsolver : solver.Promises) {e : Encoding}
    (he : Encoding.ofSystem s config = .ok e) {report : Report} (hreport : solver (queryOf e config) = .ok report)
    {answer : Simplified} (hresult : (s.conclude given e report).2 = .ok answer) :
    (answer = .unsat ∧ (s.conclude given e report).1.consistent = false ∧ report.outcome = .unsat) ∨
    (answer ≠ .unsat ∧ (s.conclude given e report).1.consistent = true ∧ report.outcome = .sat) ∨
    (answer ≠ .unsat ∧ (s.conclude given e report).1 = (s.learnReport e report).2 ∧
      report.outcome = .undetermined) := by
  have hbounded := bounded_queryOf hs he
  cases houtcome : report.outcome with
  | unsat =>
    left
    rw [conclude_of_unsat houtcome] at hresult ⊢
    cases hresult
    exact ⟨rfl, consistent_add_one s, rfl⟩
  | sat =>
    right
    left
    obtain ⟨model, hmodel, hholds⟩ := hsolver.model hbounded hreport houtcome
    have hconsistent := consistent_learnReport hs he (hsolver.facts hbounded hreport) hholds
    have hconclude : s.conclude given e report = ((s.learnReport e report).2,
        ((s.learnReport e report).2.solutionOf given e model).map fun solution =>
          .learnt (s.learnReport e report).1 (some solution)) := by
      simp only [conclude, houtcome, hmodel]
    rw [hconclude] at hresult ⊢
    refine ⟨?_, hconsistent, rfl⟩
    rintro rfl
    rw [solutionOf] at hresult
    dsimp only at hresult
    split at hresult
    · cases hresult
    · cases hresult
  | undetermined =>
    right
    right
    rw [conclude_undetermined houtcome] at hresult ⊢
    cases hresult
    exact ⟨Simplified.noConfusion, rfl, rfl⟩

theorem overlooks_iff (h : s.consistent = true) {e : Encoding} (he : Encoding.ofSystem s config = .ok e)
    {report : Report} (hreport : solver (queryOf e config) = .ok report) : s.Overlooks config solver ↔
      report.outcome = .undetermined ∧ (s.learnReport e report).2.consistent = false := by
  constructor
  · rintro ⟨-, e', report', he', hreport', hoverlooks⟩
    rw [he] at he'
    cases he'
    rw [hreport] at hreport'
    cases hreport'
    exact hoverlooks
  · intro hoverlooks
    exact ⟨h, e, report, he, hreport, hoverlooks⟩

/-- The answer agrees with the flag exactly when no contradiction among the facts is overlooked. Only then is a
contradictory system answered with a number of facts; it has no solution. -/
theorem agrees_iff_not_overlooks (hs : s.Reachable) (hsolver : solver.Promises) {answer : Simplified}
    (hresult : (s.simplify given config solver).result = .ok answer) :
    (Agrees (s.simplify given config solver) answer ↔ ¬s.Overlooks config solver) ∧
    (answer = .unsat → (s.simplify given config solver).system.consistent = false) ∧
    (s.Overlooks config solver → ∀ a, ¬Solves a s) := by
  cases hconsistent : s.consistent with
  | false =>
    have hnot : ¬s.Overlooks config solver := fun h => Bool.false_ne_true (hconsistent.symm.trans h.1)
    rw [simplify_of_inconsistent hconsistent] at hresult ⊢
    cases hresult
    exact ⟨⟨fun _ => hnot, fun _ => ⟨fun _ => hconsistent, fun _ => rfl⟩⟩, fun _ => hconsistent,
      fun h => absurd h hnot⟩
  | true =>
    obtain ⟨e, report, he, hreport⟩ := exists_report hconsistent hresult
    rw [simplify_of_report hconsistent he hreport] at hresult ⊢
    rw [Agrees, overlooks_iff hconsistent he hreport]
    dsimp only at hresult ⊢
    refine ⟨?_, ?_, ?_⟩
    · rcases answer_cases hs.valid hsolver he hreport hresult with
        ⟨hanswer, hflag, houtcome⟩ | ⟨hanswer, hflag, houtcome⟩ | ⟨hanswer, hsystem, houtcome⟩
      · simp [hanswer, hflag, houtcome]
      · simp [hanswer, hflag, houtcome]
      · simp [hanswer, hsystem, houtcome]
    · intro hunsat
      rcases answer_cases hs.valid hsolver he hreport hresult with ⟨-, hflag, -⟩ | ⟨hanswer, -⟩ | ⟨hanswer, -⟩
      · exact hflag
      · exact absurd hunsat hanswer
      · exact absurd hunsat hanswer
    · rintro ⟨-, hflag⟩ a ha
      have hkeeps := keeps_learnReport hs.valid he (hsolver.facts (bounded_queryOf hs.valid he) hreport)
      exact not_solves_of_inconsistent hkeeps.valid hflag a ((hkeeps.solves a).2 ha)

/-- Two equations that differ by one, and a solver that stops after deriving a unit: learning the unit clears the
flag, and one learnt fact is reported. -/
theorem learnt_of_overlooked :
    let s := ofPolynomials [.sum [.ofVars [1, 2], .ofVar 3], .sum [.ofVars [1, 2], .ofVar 3, .one]]
    ∃ solver : Solver, solver.Promises ∧ (s.simplify s {} solver).result = .ok (.learnt 1 none) ∧
      ¬Agrees (s.simplify s {} solver) (.learnt 1 none) := by
  intro s
  have hs : s.Reachable := reachable_ofPolynomials (by decide)
  have hconsistent : s.consistent = true := by decide
  obtain ⟨e, he⟩ := hs.valid.exists_encoding (Encoding.admits_of_cutoff_le {} s (by decide) (by decide) (by decide))
  let report : Report :=
    { outcome := .undetermined, model := none, units := [⟨3, true⟩], equivalences := [], relations := []
      combined := [] }
  have hnone : ∀ a, ¬(queryOf e {}).Holds a := by
    intro a ha
    obtain ⟨hfirst, hsecond⟩ := List.forall_mem_cons.1 (solves_ofPolynomials.1 (solves_repair hs.valid he ha))
    rw [List.forall_mem_singleton, Polynomial.eval_sum] at hsecond
    rw [Polynomial.eval_sum] at hfirst
    simp only [List.map_cons, List.map_nil, parity_cons, parity_nil, Monomial.eval_one] at hfirst hsecond
    revert hfirst hsecond
    cases (Monomial.ofVars [1, 2]).eval (s.repair a) <;> cases (Monomial.ofVar 3).eval (s.repair a) <;> simp
  have hpromises : (Solver.answering (queryOf e {}) report).Promises :=
    Solver.promises_answering (fun a ha => absurd ha (hnone a)) (by decide)
  have hreport : Solver.answering (queryOf e {}) report (queryOf e {}) = .ok report := if_pos rfl
  have hunit : e.unitPolynomial? ⟨3, true⟩ = some (.ofMonomial (.ofVar 3) + .constant true) := by
    obtain ⟨hnum, -, -⟩ := hs.valid.encoded he
    have hlt : 3 < e.numSystemVars := by
      rw [hnum]
      decide
    rw [Encoding.unitPolynomial?, Encoding.monomialOf?_of_lt hlt]
    rfl
  have hlearn : s.learnReport e report = (1, (s.record (.value 3 true)).propagate) := by
    have hchanged : s.learn (.ofMonomial (.ofVar 3) + .constant true) =
        (true, (s.record (.value 3 true)).propagate) := rfl
    rw [learnReport_of_unit rfl hunit, hchanged]
    rfl
  have hflag : (s.learnReport e report).2.consistent = false := by
    have hfirst : (s.record (.value 3 true)).pass.progress = true := by decide
    have hsecond : ¬(s.record (.value 3 true)).pass.system.pass.progress = true := by decide
    have hcleared : (s.record (.value 3 true)).pass.system.pass.system.consistent = false := by decide
    rw [hlearn]
    dsimp only
    rw [propagate_of_progress hfirst, propagate_of_not_progress hsecond, hcleared]
  have hresult : (s.simplify s {} (Solver.answering (queryOf e {}) report)).result = .ok (.learnt 1 none) := by
    rw [simplify_of_report hconsistent he hreport, conclude_undetermined rfl, hlearn]
  have hoverlooks := (overlooks_iff hconsistent he hreport).2 ⟨rfl, hflag⟩
  refine ⟨Solver.answering (queryOf e {}) report, hpromises, hresult, fun hagrees => ?_⟩
  exact (agrees_iff_not_overlooks hs hpromises hresult).1.1 hagrees hoverlooks

end EquationSystem

end BoolPoly
