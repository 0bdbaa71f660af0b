import BoolPoly.Proofs.EquationSystem.Check
import BoolPoly.Proofs.Simplify.Solutions

namespace BoolPoly.EquationSystem

open Probing (valueAt)

variable {s t given : EquationSystem} {config : Config} {e : Encoding} {report : Report}

/-- The assignment with the replaced variables made to follow their roots. In a model of the query they may have any
values, as the clauses do not mention them. -/
def repair (s : EquationSystem) (a : Var → Bool) (v : Var) : Bool :=
  match s.replacement? v with
  | some r => a r.root ^^ r.inverted
  | none => a v

theorem repair_of_replacement? {a : Var → Bool} {v : Var} {r : Replacement} (h : s.replacement? v = some r) :
    s.repair a v = (a r.root ^^ r.inverted) := by
  rw [repair, h]

theorem repair_of_not_replaced {a : Var → Bool} {v : Var} (h : s.replacement? v = none) : s.repair a v = a v := by
  rw [repair, h]

/-- A model of the query is a solution once it is repaired: the clauses and assumptions make the equations and the
values hold, and the repair makes the replacements. -/
theorem solves_repair (hs : s.Valid) (he : Encoding.ofSystem s config = .ok e) {a : Var → Bool}
    (ha : (queryOf e config).Holds a) : Solves (s.repair a) s := by
  obtain ⟨-, -, h⟩ := hs.encoded he
  rw [solves_iff]
  refine ⟨fun p hp => ?_, ⟨fun {v b} hv => ?_, fun {v r} hr => ?_⟩⟩
  · have hagree : ∀ v ∈ p.vars, s.repair a v = a v := fun v hv => repair_of_not_replaced (hs.settled.free hp v hv).2
    rw [Polynomial.eval_congr hagree]
    exact h.determines.sound ha.clauses p hp
  · have hnone : s.replacement? v = none := by
      cases hr : s.replacement? v with
      | none => rfl
      | some r =>
        rw [hs.facts.value_none hr] at hv
        cases hv
    rw [repair_of_not_replaced hnone]
    exact Literal.holds_mk.1 (ha.assumptions ⟨v, b⟩ ((mem_assumptions hs he).2 hv))
  · rw [repair_of_replacement? hr, repair_of_not_replaced (hs.facts.root_free hr).2]

/-- Completing a model by the facts of a later system gives the repaired model: the later facts hold there, although
the model was found before they were learnt. -/
theorem getElem?_extend_restrict (hs : s.Valid) (he : Encoding.ofSystem s config = .ok e) {model : Array Bool}
    (hmodel : (queryOf e config).Holds (valueAt model)) (hst : s.Keeps t) {v : Var} (hv : v < s.numVars) :
    (t.extend (e.restrict model))[v]? = some (s.repair (valueAt model) v) := by
  obtain ⟨hnum, -, -⟩ := hs.encoded he
  have hsolves := (hst.solves _).2 (solves_repair hs he hmodel)
  refine getElem?_extend hst.valid hsolves.obeys ?_ (hst.numVars.symm ▸ hv)
  intro x hx hfree
  rw [hst.numVars, ← hnum] at hx
  rw [repair_of_not_replaced (hst.grow.free hfree).2, Encoding.restrict, Array.getElem?_ofFn, dif_pos hx]
  rfl

/-- With a genuine model the solution is the repaired model, which passes both checks, that of the given system and
that of the resulting one. -/
theorem conclude_sat (hs : s.Valid) (hgiven : given.Keeps s) (hvalid : given.Valid)
    (he : Encoding.ofSystem s config = .ok e) (hfacts : ∀ a, (queryOf e config).Holds a → report.Holds a)
    (hsat : report.outcome = .sat) {model : Array Bool} (hmodel : report.model = some model)
    (hholds : (queryOf e config).Holds (valueAt model)) : ∃ count solution,
      (s.conclude given e report).2 = .ok (.learnt count (some solution)) ∧
      (∀ v, v < s.numVars → solution[v]? = some (s.repair (valueAt model) v)) ∧
      given.check solution = .ok () ∧ (s.conclude given e report).1.check solution = .ok () := by
  have hkeeps := keeps_learnReport hs he hfacts
  have hsolves := solves_repair hs he hholds
  have hextend := fun v hv => getElem?_extend_restrict hs he hholds hkeeps (v := v) hv
  have hcheck : given.check ((s.learnReport e report).2.extend (e.restrict model)) = .ok () :=
    check_of_solves hvalid ((hgiven.solves _).1 hsolves) fun v hv => hextend v (hgiven.numVars.symm ▸ hv)
  have hcheck' : (s.learnReport e report).2.check ((s.learnReport e report).2.extend (e.restrict model)) = .ok () :=
    check_of_solves hkeeps.valid ((hkeeps.solves _).2 hsolves) fun v hv => hextend v (hkeeps.numVars ▸ hv)
  refine ⟨(s.learnReport e report).1, _, ?_, hextend, hcheck, ?_⟩
  · simp only [conclude, hsat, hmodel, solutionOf, hcheck]
    rfl
  · simpa only [conclude, hsat, hmodel] using hcheck'

/-- The systems that rounds of simplification lead to. Every round has a solver and a configuration of its own and
checks its solution against the system as it was given. -/
inductive Rounds (given : EquationSystem) : EquationSystem → Prop
  | start : Rounds given given
  | round {s : EquationSystem} (hs : Rounds given s) (config : Config) {decide : Decider}
      (hdecide : decide.Correct) : Rounds given (s.simplify given config decide.solver).system

theorem Rounds.keeps (h : Rounds given s) (hgiven : given.Valid) : given.Keeps s := by
  induction h with
  | start => exact .refl hgiven
  | round _ config hdecide ih =>
    exact ih.trans (keeps_simplify ih.valid (Decider.sound_solver hdecide) given config)

/-- Rounds lead from a reachable system to reachable ones only, so that the variables of each of them can be
counted. -/
theorem Rounds.reachable (h : Rounds given s) (hgiven : given.Reachable) : s.Reachable := by
  induction h with
  | start => exact hgiven
  | round _ config _ ih => exact ih.simplify given config _

/-- With a correct decision procedure a round either finds a solution that passes both checks, or answers that there
is none. -/
theorem simplify_cases (hs : s.Valid) (hgiven : given.Keeps s) (hvalid : given.Valid)
    (he : Encoding.ofSystem s config = .ok e) {decide : Decider} (hdecide : decide.Correct) :
    ((s.simplify given config decide.solver).result = .ok .unsat ∧ ∀ a, ¬Solves a s) ∨
    ∃ a, Solves a s ∧ ∃ count solution,
      (s.simplify given config decide.solver).result = .ok (.learnt count (some solution)) ∧
      (∀ v, v < s.numVars → solution[v]? = some (a v)) ∧ given.check solution = .ok () ∧
      (s.simplify given config decide.solver).system.check solution = .ok () := by
  cases hconsistent : s.consistent with
  | false =>
    left
    refine ⟨?_, not_solves_of_inconsistent hs hconsistent⟩
    rw [simplify, if_neg (by simp [hconsistent])]
  | true =>
    have hbounded := bounded_queryOf hs he
    cases hanswer : decide (queryOf e config).numVars (queryOf e config).clauses (queryOf e config).assumptions with
    | none =>
      left
      refine ⟨?_, not_solves_of_unsat hs he (hdecide.none hbounded.clauses hbounded.assumptions hanswer)⟩
      simp only [simplify, hconsistent, if_true, he, Decider.solver_of_none hanswer, conclude]
    | some model =>
      right
      have hsolver := Decider.solver_of_some hanswer
      have hholds := hdecide.model hbounded.clauses hbounded.assumptions hanswer
      have hreport := Decider.sound_solver hdecide _ _ hbounded hsolver
      refine ⟨_, solves_repair hs he hholds, ?_⟩
      simp only [simplify, hconsistent, if_true, he, hsolver]
      exact conclude_sat hs hgiven hvalid he hreport.facts rfl rfl hholds

/-- Every round decides the polynomials that were given, for every budget and whichever models are found: it answers
that they have no common zero just if they have none. Otherwise it gives a solution, at which each of them vanishes,
and which passes the check of the given system and of the resulting one. Nothing overflows on the way, as the result
is reachable again. -/
theorem simplify_decides {ps : List Polynomial} (hgiven : ofPolynomials? ps = some given) (hs : Rounds given s)
    (he : Encoding.ofSystem s config = .ok e) {decide : Decider} (hdecide : decide.Correct) :
    ((s.simplify given config decide.solver).result = .ok .unsat ↔
      ¬∃ a : Var → Bool, ∀ p ∈ ps, p.eval a = false) ∧
    ((∃ a : Var → Bool, ∀ p ∈ ps, p.eval a = false) → ∃ count solution,
      (s.simplify given config decide.solver).result = .ok (.learnt count (some solution)) ∧
      (∀ p ∈ ps, Vanishes solution p) ∧ given.check solution = .ok () ∧
      (s.simplify given config decide.solver).system.check solution = .ok ()) ∧
    (s.simplify given config decide.solver).system.Reachable := by
  obtain ⟨hps, rfl⟩ := ofPolynomials?_eq_some_iff.1 hgiven
  have hvalid := valid_ofPolynomials ps
  have hkeeps := hs.keeps hvalid
  have hzero : ∀ a, Solves a s ↔ ∀ p ∈ ps, p.eval a = false := fun a =>
    (hkeeps.solves a).trans solves_ofPolynomials
  have hreachable := (hs.reachable (reachable_ofPolynomials hps)).simplify (ofPolynomials ps) config decide.solver
  obtain ⟨hresult, hnone⟩ | ⟨a, ha, count, solution, hresult, hvalues, hchecks⟩ :=
    simplify_cases hkeeps.valid hkeeps hvalid he hdecide
  · have hno : ¬∃ a : Var → Bool, ∀ p ∈ ps, p.eval a = false := fun ⟨a, ha⟩ => hnone a ((hzero a).2 ha)
    exact ⟨iff_of_true hresult hno, fun hex => absurd hex hno, hreachable⟩
  · have hex : ∃ a : Var → Bool, ∀ p ∈ ps, p.eval a = false := ⟨a, (hzero a).1 ha⟩
    refine ⟨iff_of_false (by simp [hresult]) (not_not_intro hex), fun _ => ⟨count, solution, hresult, ?_, hchecks⟩,
      hreachable⟩
    intro p hp
    have hvars : ∀ v ∈ p.vars, v < s.numVars := hkeeps.numVars ▸ numVars_ofPolynomials_le_iff.1 (Nat.le_refl _) p hp
    rw [Vanishes, Polynomial.eval?_eq_some fun v hv => hvalues v (hvars v hv), (hzero a).1 ha p hp]

/-- The second round on a system with a common zero, with the facts of the first round in it. -/
theorem simplify_decides_again :
    let ps := [.sum [.ofVars [1, 2], .ofVars [2, 3], .ofVar 4, .one], .sum [.ofVars [1, 4], .ofVar 3, .ofVar 5]]
    let s := ((ofPolynomials ps).simplify (ofPolynomials ps) {} probingSolver).system
    ofPolynomials? ps = some (ofPolynomials ps) ∧ Rounds (ofPolynomials ps) s ∧
    (∃ e, Encoding.ofSystem s {} = .ok e) ∧ Decider.Correct Cnf.solveUnder ∧ ∃ count solution,
      (s.simplify (ofPolynomials ps) {} probingSolver).result = .ok (.learnt count (some solution)) ∧
      (∀ p ∈ ps, Vanishes solution p) ∧ (ofPolynomials ps).check solution = .ok () := by
  intro ps s
  have hgiven : ofPolynomials? ps = some (ofPolynomials ps) := ofPolynomials?_eq_some_iff.2 ⟨by decide, rfl⟩
  have hs : Rounds (ofPolynomials ps) s := Rounds.start.round {} Cnf.correct_solveUnder
  have hvalid := (hs.keeps (valid_ofPolynomials ps)).valid
  obtain ⟨e, he⟩ := hvalid.exists_encoding (Encoding.admits_of_cutoff_le {} s (by decide) (by decide) (by decide))
  have hzero : ∀ p ∈ ps, p.eval (fun v => v == 4) = false := by decide
  obtain ⟨-, hfound, -⟩ := simplify_decides hgiven hs he Cnf.correct_solveUnder
  obtain ⟨count, solution, hresult, hvanishes, hcheck, -⟩ := hfound ⟨_, hzero⟩
  exact ⟨hgiven, hs, ⟨e, he⟩, Cnf.correct_solveUnder, count, solution, hresult, hvanishes, hcheck⟩

end BoolPoly.EquationSystem
