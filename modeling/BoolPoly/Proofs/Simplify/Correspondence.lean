import BoolPoly.Proofs.Encoding.PartialSum
import BoolPoly.Proofs.EquationSystem.Check
import BoolPoly.Proofs.Simplify.Decision

namespace BoolPoly

open Probing (valueAt)

namespace Encoding

variable {e : Encoding} {parts : Var → List Monomial} {solution : Solution} {ps : List Polynomial}

/-- Whether the lists say what the variables of the encoding stand for: a variable with a monomial stands for it, and
a partial sum for a part of the terms of a polynomial. -/
structure Parts (e : Encoding) (ps : List Polynomial) (parts : Var → List Monomial) : Prop where
  monomial : ∀ v m, e.monomialOf? v = some m → parts v = [m]
  partialSum : ∀ v < e.numVars, e.monomialOf? v = none → ∃ p ∈ ps, (parts v).Subperm p.terms

/-- The model in which every variable has the value of the sum that it stands for at a solution. It gives replaced
variables the values that they have in the solution. -/
def modelOf (e : Encoding) (parts : Var → List Monomial) (solution : Solution) : Array Bool :=
  Array.ofFn fun v : Fin e.numVars => parity ((parts v).map (Monomial.eval (valueAt solution)))

theorem valueAt_modelOf {v : Var} (hv : v < e.numVars) :
    valueAt (e.modelOf parts solution) v = parity ((parts v).map (Monomial.eval (valueAt solution))) := by
  rw [valueAt, modelOf, Array.getElem?_ofFn, dif_pos hv, Option.getD_some]

theorem size_modelOf : (e.modelOf parts solution).size = e.numVars := Array.size_ofFn

/-- The variables of a faithful encoding whose partial sums stand for parts of the polynomials have parts, and they
have the values of these wherever the clauses hold. The parts are chosen once, for all assignments. -/
theorem exists_parts (h : e.Faithful ps) (hsummed : e.Summed ps) :
    ∃ parts, e.Parts ps parts ∧ ∀ v < e.numVars, e.StandsFor v (parts v) := by
  have hstands : ∀ v, ∃ ms, (∀ m, e.monomialOf? v = some m → ms = [m]) ∧ (v < e.numVars →
      (e.monomialOf? v = none → ∃ p ∈ ps, ms.Subperm p.terms) ∧ e.StandsFor v ms) := by
    intro v
    cases hv : e.monomialOf? v with
    | some m =>
      refine ⟨[m], fun n hn => by rw [Option.some.inj hn], fun _ => ⟨nofun, fun a ha => ?_⟩⟩
      rw [h.eval_eq (holds_clauses.1 ha).1 hv, List.map_cons, List.map_nil, parity_cons, parity_nil,
        Bool.xor_false]
    | none =>
      by_cases hlt : v < e.numVars
      · obtain ⟨p, hp, ms, hms, hvalue⟩ := hsummed v hlt hv
        exact ⟨ms, nofun, fun _ => ⟨fun _ => ⟨p, hp, hms⟩, hvalue⟩⟩
      · exact ⟨[], nofun, fun hv => absurd hv hlt⟩
  obtain ⟨parts, hparts⟩ := Classical.skolem.1 hstands
  exact ⟨parts, ⟨fun v => (hparts v).1, fun v hv => ((hparts v).2 hv).1⟩, fun v hv => ((hparts v).2 hv).2⟩

/-- What a variable stands for is about the variables of the system, so that a solution decides its value. -/
theorem Parts.lt_of_mem (hparts : e.Parts ps parts) (h : e.Faithful ps)
    (hps : ∀ p ∈ ps, ∀ v ∈ p.vars, v < e.numSystemVars) {v : Var} (hv : v < e.numVars) {m : Monomial}
    (hm : m ∈ parts v) : ∀ x ∈ m.vars, x < e.numSystemVars := by
  cases hname : e.monomialOf? v with
  | some n =>
    rw [hparts.monomial v n hname, List.mem_singleton] at hm
    rw [hm]
    exact h.lt_of_monomialOf? hname
  | none =>
    obtain ⟨p, hp, hsubperm⟩ := hparts.partialSum v hv hname
    exact fun x hx => hps p hp x (Polynomial.mem_vars_of_mem_terms (hsubperm.subset hm) hx)

/-- Where the clauses hold, an assignment that agrees with a solution is the model of the solution. So no other model
agrees with it. -/
theorem Parts.eq_modelOf (hparts : e.Parts ps parts) (h : e.Faithful ps)
    (hps : ∀ p ∈ ps, ∀ v ∈ p.vars, v < e.numSystemVars) (hstands : ∀ v < e.numVars, e.StandsFor v (parts v))
    {a : Var → Bool} (ha : Cnf.holds a e.clauses = true)
    (hagree : AgreeBelow e.numSystemVars a (valueAt solution)) :
    AgreeBelow e.numVars a (valueAt (e.modelOf parts solution)) := by
  intro v hv
  rw [valueAt_modelOf hv, hstands v hv a ha]
  refine congrArg parity (List.map_congr_left fun m hm => ?_)
  exact Monomial.eval_congr fun x hx => hagree x (hparts.lt_of_mem h hps hv hm x hx)

end Encoding

namespace EquationSystem

variable {s : EquationSystem} {config : Config} {e : Encoding} {solution : Solution}

/-- Nothing is to be repaired in a solution. -/
theorem repair_of_solves {a : Var → Bool} (ha : Solves a s) (v : Var) : s.repair a v = a v := by
  cases hr : s.replacement? v with
  | none => exact repair_of_not_replaced hr
  | some r => rw [repair_of_replacement? hr, (solves_iff.1 ha).2.replacement hr]

/-- A completed model passes the check: it is repaired by the facts, and the repaired model is a solution. -/
theorem check_extend_restrict (hs : s.Valid) (he : Encoding.ofSystem s config = .ok e) {model : Array Bool}
    (hmodel : (queryOf e config).Holds (valueAt model)) : s.check (s.extend (e.restrict model)) = .ok () :=
  check_of_solves hs (solves_repair hs he hmodel) fun _ hv => getElem?_extend_restrict hs he hmodel (.refl hs) hv

/-- A model that agrees with a solution is completed to it, because in a solution the replaced variables follow their
roots already. -/
theorem extend_restrict_of_agree (hs : s.Valid) (he : Encoding.ofSystem s config = .ok e) {model : Array Bool}
    (hmodel : (queryOf e config).Holds (valueAt model)) (hsize : solution.size = s.numVars)
    (hsolves : Solves (valueAt solution) s) (hagree : AgreeBelow s.numVars (valueAt model) (valueAt solution)) :
    s.extend (e.restrict model) = solution := by
  have hextended : (s.extend (e.restrict model)).size = s.numVars := Array.size_ofFn
  apply Array.ext_getElem?
  intro v
  by_cases hv : v < s.numVars
  · rw [getElem?_extend_restrict hs he hmodel (.refl hs) hv, getElem?_eq_valueAt (hsize.symm ▸ hv)]
    rw [← repair_of_solves hsolves v]
    cases hr : s.replacement? v with
    | none => rw [repair_of_not_replaced hr, repair_of_not_replaced hr, hagree v hv]
    | some r =>
      have hroot := Nat.lt_trans (hs.facts.root_lt hr) hv
      rw [repair_of_replacement? hr, repair_of_replacement? hr, hagree r.root hroot]
  · rw [Array.getElem?_eq_none (by omega), Array.getElem?_eq_none (by omega)]

/-- Vectors over the variables of the query are equal if their assignments agree there. -/
theorem eq_of_agreeBelow {n : Nat} {model model' : Array Bool} (hsize : model.size = n) (hsize' : model'.size = n)
    (hagree : AgreeBelow n (valueAt model) (valueAt model')) : model = model' := by
  apply Array.ext_getElem?
  intro v
  by_cases hv : v < n
  · rw [getElem?_eq_valueAt (hsize.symm ▸ hv), getElem?_eq_valueAt (hsize'.symm ▸ hv), hagree v hv]
  · rw [Array.getElem?_eq_none (by omega), Array.getElem?_eq_none (by omega)]

/-- The models of a system's query and the solutions of the system correspond. Every model is completed to a vector
that passes the check. Every vector that passes is obtained from the model in which each variable has the value, at
the vector, of its monomial or of the part of an equation that it stands for; no other model agrees with the vector.
So the query has a model just if the system has a solution. -/
theorem models_correspond (hs : s.Reachable) (he : Encoding.ofSystem s config = .ok e) :
    ∃ parts, e.Parts s.equations parts ∧
      (∀ model, (queryOf e config).Holds (valueAt model) → s.check (s.extend (e.restrict model)) = .ok ()) ∧
      (∀ solution : Solution, solution.size = s.numVars → s.check solution = .ok () →
        (queryOf e config).Holds (valueAt (e.modelOf parts solution)) ∧
        s.extend (e.restrict (e.modelOf parts solution)) = solution ∧
        (∀ v < s.numVars, valueAt (e.modelOf parts solution) v = valueAt solution v) ∧
        ∀ model, model.size = e.numVars → (queryOf e config).Holds (valueAt model) →
          (∀ v < s.numVars, valueAt model v = valueAt solution v) → model = e.modelOf parts solution) ∧
      ((∃ a, (queryOf e config).Holds a) ↔
        ∃ solution : Solution, solution.size = s.numVars ∧ s.check solution = .ok ()) := by
  have hvalid := hs.valid
  have hbounded : ∀ p ∈ s.equations, ∀ v ∈ p.vars, v < s.numVars := fun p hp => hvalid.bounded.equation hp
  obtain ⟨hnum, -, hfaithful⟩ := hvalid.encoded he
  obtain ⟨parts, hparts, hstands⟩ := Encoding.exists_parts hfaithful (Encoding.summed_of_ofSystem he hbounded)
  have hagrees : ∀ {a : Var → Bool} {solution : Solution}, (queryOf e config).Holds a →
      AgreeBelow s.numVars a (valueAt solution) → AgreeBelow e.numVars a (valueAt (e.modelOf parts solution)) :=
    fun ha hagree => hparts.eq_modelOf hfaithful (hnum.symm ▸ hbounded) hstands ha.clauses (hnum.symm ▸ hagree)
  have hmodels : ∀ solution : Solution, solution.size = s.numVars → s.check solution = .ok () →
      (queryOf e config).Holds (valueAt (e.modelOf parts solution)) ∧
      AgreeBelow s.numVars (valueAt (e.modelOf parts solution)) (valueAt solution) := by
    intro solution hsize hcheck
    obtain ⟨b, hab, hb⟩ := exists_model hvalid he ((check_iff_solves hvalid hsize.ge).1 hcheck)
    have hagree := hagrees hb hab.symm
    have hquery := bounded_queryOf hvalid he
    refine ⟨⟨?_, fun l hl => ?_⟩, (hagree.mono (hnum ▸ e.numVars_le)).symm.trans hab.symm⟩
    · rw [← Cnf.holds_congr hquery.clauses hagree]
      exact hb.clauses
    · rw [← Literal.holds_congr (hagree l.var (hquery.assumptions l hl))]
      exact hb.assumptions l hl
  refine ⟨parts, hparts, fun model hmodel => check_extend_restrict hvalid he hmodel, ?_, ?_, ?_⟩
  · intro solution hsize hcheck
    obtain ⟨hholds, hagree⟩ := hmodels solution hsize hcheck
    have hsolves := (check_iff_solves hvalid hsize.ge).1 hcheck
    refine ⟨hholds, extend_restrict_of_agree hvalid he hholds hsize hsolves hagree, hagree, ?_⟩
    intro model hmodelSize hmodel hsame
    exact eq_of_agreeBelow hmodelSize Encoding.size_modelOf (hagrees hmodel hsame)
  · rintro ⟨a, ha⟩
    have hsize : (Array.ofFn fun v : Fin s.numVars => s.repair a v).size = s.numVars := Array.size_ofFn
    refine ⟨_, hsize, (check_iff_solves hvalid hsize.ge).2 ?_⟩
    refine (solves_congr hvalid fun v hv => ?_).1 (solves_repair hvalid he ha)
    rw [valueAt, Array.getElem?_ofFn, dif_pos hv, Option.getD_some]
  · rintro ⟨solution, hsize, hcheck⟩
    exact ⟨_, (hmodels solution hsize hcheck).1⟩

/-- A system with a value, a replacement and a sum that is cut in two: one of its solutions comes from a model. -/
theorem models_correspond_mixed :
    let ps : List Polynomial := [.sum [.ofVar 0, .one], .sum [.ofVar 1, .ofVar 2],
      .sum [.ofVars [1, 3], .ofVar 4, .ofVar 5, .ofVar 6, .ofVar 7]]
    let s := ofPolynomials ps
    let config : Config := { tableCutoff := 2 }
    let solution : Solution := #[true, true, true, true, false, true, true, true]
    s.Reachable ∧ ∃ e, Encoding.ofSystem s config = .ok e ∧ ∃ model, (queryOf e config).Holds (valueAt model) ∧
      s.extend (e.restrict model) = solution ∧ s.check (s.extend (e.restrict model)) = .ok () := by
  intro ps s config solution
  have hs : s.Reachable := reachable_ofPolynomials (by decide)
  obtain ⟨e, he⟩ := hs.valid.exists_encoding (Encoding.admits_of_cutoff_le config s (by decide) (by decide) (by decide))
  have hvars : ∀ p ∈ ps, ∀ v ∈ p.vars.toList, v < 8 := by decide
  have hsize : solution.size = s.numVars := by
    apply Nat.le_antisymm
    · by_contra hless
      have hseven := numVars_ofPolynomials_le_iff.1 (Nat.le_of_lt_succ (Nat.not_le.1 hless))
      exact absurd (hseven _ (List.mem_of_getElem? (i := 2) rfl) 7 (by decide)) (by decide)
    · exact numVars_ofPolynomials_le_iff.2 hvars
  have hzero : ∀ p ∈ ps, p.eval (valueAt solution) = false := by decide
  have hcheck : s.check solution = .ok () :=
    (check_iff_solves hs.valid hsize.ge).2 (solves_ofPolynomials.2 hzero)
  obtain ⟨parts, -, hmodel, hsolution, -⟩ := models_correspond hs he
  obtain ⟨hholds, hextend, -⟩ := hsolution solution hsize hcheck
  exact ⟨hs, e, he, _, hholds, hextend, hmodel _ hholds⟩

end EquationSystem

end BoolPoly
