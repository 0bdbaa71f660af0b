import BoolPoly.Proofs.EquationSystem.Resolution

open Std

namespace BoolPoly.EquationSystem

/-- Whether the assignment makes every equation and fact of the system zero. A fact counts by its polynomial. -/
def Solves (a : Var → Bool) (s : EquationSystem) : Prop := ∀ p ∈ s.polynomials, p.eval a = false

theorem solves_iff {a : Var → Bool} {s : EquationSystem} :
    Solves a s ↔ (∀ p ∈ s.equations, p.eval a = false) ∧ Obeys a s := by
  rw [Solves, polynomials, List.forall_mem_append, List.forall_mem_append, List.forall_mem_map, List.forall_mem_map,
    and_assoc]
  refine and_congr_right fun _ => ?_
  constructor
  · rintro ⟨hvalues, hreplacements⟩
    constructor
    · intro v b hb
      have hzero := hvalues (v, b) (ExtTreeMap.mem_toList_iff_getElem?_eq_some.2 hb)
      rw [Polynomial.eval_add, Polynomial.eval_ofVar, Polynomial.eval_constant] at hzero
      simpa using hzero
    · intro v r hr
      have hzero := hreplacements (v, r) (ExtTreeMap.mem_toList_iff_getElem?_eq_some.2 hr)
      rw [Polynomial.eval_add, Polynomial.eval_ofVar, Replacement.eval_polynomial] at hzero
      simpa using hzero
  · intro h
    constructor
    · rintro ⟨v, b⟩ hmem
      rw [Polynomial.eval_add, Polynomial.eval_ofVar, Polynomial.eval_constant,
        h.value (ExtTreeMap.mem_toList_iff_getElem?_eq_some.1 hmem), Bool.xor_self]
    · rintro ⟨v, r⟩ hmem
      rw [Polynomial.eval_add, Polynomial.eval_ofVar, Replacement.eval_polynomial,
        h.replacement (ExtTreeMap.mem_toList_iff_getElem?_eq_some.1 hmem), Bool.xor_self]

/-- Every variable that occurs, in an equation or in a fact, is below the number of variables. -/
structure Bounded (s : EquationSystem) : Prop where
  equation : ∀ {p : Polynomial}, p ∈ s.equations → ∀ v ∈ p.vars, v < s.numVars
  free : ∀ {v : Var}, s.numVars ≤ v → s.Free v

/-- `t` is `s` with the equations `ps` taken in: its solutions are those of `s` at which they are zero, and the facts
of `s` are kept. -/
structure Absorbs (s : EquationSystem) (ps : List Polynomial) (t : EquationSystem) : Prop where
  valid : t.FactsValid
  grow : FactsGrow s t
  solves : ∀ a, Solves a t ↔ Solves a s ∧ ∀ p ∈ ps, p.eval a = false
  numVars : t.numVars = s.numVars
  bounded : s.Bounded → (∀ p ∈ ps, ∀ v ∈ p.vars, v < s.numVars) → t.Bounded

theorem Absorbs.trans {s t u : EquationSystem} {ps qs : List Polynomial} (hst : s.Absorbs ps t)
    (htu : t.Absorbs qs u) : s.Absorbs (ps ++ qs) u := by
  refine ⟨htu.valid, hst.grow.trans htu.grow, fun a => ?_, htu.numVars.trans hst.numVars, fun hs hvars => ?_⟩
  · rw [htu.solves, hst.solves, List.forall_mem_append, and_assoc]
  · obtain ⟨hps, hqs⟩ := List.forall_mem_append.1 hvars
    apply htu.bounded (hst.bounded hs hps)
    rw [hst.numVars]
    exact hqs

section Single

variable {s : EquationSystem} {p : Polynomial}

theorem Solves.obeys {a : Var → Bool} (h : Solves a s) : Obeys a s := (solves_iff.1 h).2

/-- An equation that holds at all solutions adds nothing, so that the system may be left as it is. -/
theorem absorbs_self (hs : s.FactsValid) (h : ∀ a, Solves a s → p.eval a = false) : s.Absorbs [p] s := by
  refine ⟨hs, .refl s, fun a => ?_, rfl, fun hb _ => hb⟩
  rw [List.forall_mem_singleton]
  exact ⟨fun ha => ⟨ha, h a ha⟩, And.left⟩

theorem absorbs_known (hs : s.FactsValid) (h : s.resolve p = .zero) : s.Absorbs [p] s := by
  apply absorbs_self hs
  intro a ha
  rw [← eval_resolve ha.obeys, h, Polynomial.eval_zero]

theorem absorbs_repeated (hs : s.FactsValid) (h : s.resolve p ∈ s.equations) : s.Absorbs [p] s := by
  apply absorbs_self hs
  intro a ha
  rw [← eval_resolve ha.obeys]
  exact (solves_iff.1 ha).1 _ h

theorem mem_equations_refute {q : Polynomial} : q ∈ s.refute.equations ↔ q ∈ s.equations ∨ q = .one := by
  unfold refute
  by_cases hone : .one ∈ s.equations
  · rw [if_pos hone]
    constructor
    · exact .inl
    · rintro (hq | rfl)
      · exact hq
      · exact hone
  · rw [if_neg hone, List.mem_append, List.mem_singleton]

theorem absorbs_refute (hs : s.FactsValid) (h : s.resolve p = .one) : s.Absorbs [p] s.refute := by
  refine ⟨⟨hs.value_none, hs.root_lt, hs.root_free⟩, ⟨id, id⟩, fun a => ?_, rfl, fun hb _ => ⟨?_, hb.free⟩⟩
  · rw [List.forall_mem_singleton]
    constructor
    · intro ha
      have hone := (solves_iff.1 ha).1 .one (mem_equations_refute.2 (.inr rfl))
      rw [Polynomial.eval_one] at hone
      cases hone
    · rintro ⟨ha, hp⟩
      rw [← eval_resolve ha.obeys, h, Polynomial.eval_one] at hp
      cases hp
  · intro q hq v hv
    rcases mem_equations_refute.1 hq with hq | rfl
    · exact hb.equation hq v hv
    · exact absurd hv Polynomial.not_mem_vars_constant

theorem absorbs_record (hs : s.FactsValid) {fact : Fact} (h : fact.States (s.resolve p)) :
    s.Absorbs [p] (s.record fact) := by
  have hfree : fact.About s.Free := about_free_of_states hs h
  have hequations := s.equations_record fact
  refine ⟨hs.record hfree, factsGrow_record hs hfree, fun a => ?_, (s.frame_record fact).1, fun hb hp => ⟨?_, ?_⟩⟩
  · rw [solves_iff, solves_iff, hequations, obeys_record hs hfree, List.forall_mem_singleton, ← and_assoc]
    refine and_congr_right fun ha => ?_
    rw [h.holds_iff, eval_resolve ha.2]
  · rw [hequations, (s.frame_record fact).1]
    exact hb.equation
  · intro v hv
    rw [(s.frame_record fact).1] at hv
    refine free_record.2 ⟨hb.free hv, fun hsettles => ?_⟩
    have hlt : fact.About (· < s.numVars) :=
      h.about fun _ hx => lt_of_mem_vars_resolve hs (hp p (List.mem_singleton_self p)) hx
    exact Nat.not_lt.2 hv (hlt.of_settles hsettles)

theorem absorbs_append (hs : s.FactsValid) :
    s.Absorbs [p] { s with equations := s.equations ++ [s.resolve p] } := by
  refine ⟨⟨hs.value_none, hs.root_lt, hs.root_free⟩, ⟨id, id⟩, fun a => ?_, rfl, fun hb hp => ⟨?_, hb.free⟩⟩
  · rw [solves_iff, solves_iff, List.forall_mem_append, List.forall_mem_singleton, List.forall_mem_singleton]
    constructor
    · rintro ⟨⟨heqs, hp⟩, ha⟩
      have ha : Obeys a s := ⟨ha.value, ha.replacement⟩
      rw [eval_resolve ha] at hp
      exact ⟨⟨heqs, ha⟩, hp⟩
    · rintro ⟨⟨heqs, ha⟩, hp⟩
      exact ⟨⟨heqs, by rwa [eval_resolve ha]⟩, ⟨ha.value, ha.replacement⟩⟩
  · intro q hq
    rcases List.mem_append.1 hq with hq | hq
    · exact hb.equation hq
    · obtain rfl := List.mem_singleton.1 hq
      intro v hv
      exact lt_of_mem_vars_resolve hs (hp p (List.mem_singleton_self p)) hv

end Single

/-- What settling an equation can do: it is known, a contradiction, recorded as a fact, there already or kept. An
invariant of a pass needs one case for each of these. -/
inductive Pass.Settles (pass : Pass) (equation : Polynomial) : Pass → Prop
  | known (h : pass.system.resolve equation = .zero) : Settles pass equation pass
  | refuted (h : pass.system.resolve equation = .one) :
      Settles pass equation { pass with system := pass.system.refute }
  | recorded {fact : Fact} (h : fact.States (pass.system.resolve equation)) :
      Settles pass equation ⟨pass.system.record fact, true⟩
  | repeated (h : pass.system.resolve equation ∈ pass.system.equations) : Settles pass equation pass
  | kept (hzero : pass.system.resolve equation ≠ .zero) (hone : pass.system.resolve equation ≠ .one)
      (hfact : Fact.ofPolynomial? (pass.system.resolve equation) = none)
      (hnew : pass.system.resolve equation ∉ pass.system.equations) :
      Settles pass equation { pass with
        system := { pass.system with
          equations := pass.system.equations ++ [pass.system.resolve equation] } }

theorem Pass.settles_settle (pass : Pass) (equation : Polynomial) :
    pass.Settles equation (pass.settle equation) := by
  simp only [settle]
  split
  · next hzero => exact .known (Polynomial.eq_zero_of_isZero hzero)
  · next hzero =>
    split
    · next hone => exact .refuted (Polynomial.eq_one_of_isOne hone)
    · next hone =>
      split
      · next fact hfact => exact .recorded (Fact.states_of_ofPolynomial? hfact)
      · next hfact =>
        split
        · next hmem => exact .repeated hmem
        · next hmem => exact .kept (Polynomial.ne_zero_of_isZero hzero) (Polynomial.ne_one_of_isOne hone) hfact hmem

theorem Pass.absorbs_settle {pass : Pass} (hs : pass.system.FactsValid) (equation : Polynomial) :
    pass.system.Absorbs [equation] (pass.settle equation).system := by
  have hsettles := pass.settles_settle equation
  generalize pass.settle equation = result at hsettles
  cases hsettles with
  | known h => exact absorbs_known hs h
  | refuted h => exact absorbs_refute hs h
  | recorded h => exact absorbs_record hs h
  | repeated h => exact absorbs_repeated hs h
  | kept hzero hone hfact hnew => exact absorbs_append hs

theorem Pass.absorbs_foldl_settle (start : Pass) (hs : start.system.FactsValid) (equations : List Polynomial) :
    start.system.Absorbs equations (equations.foldl Pass.settle start).system := by
  induction equations generalizing start with
  | nil => exact ⟨hs, .refl _, fun a => by simp, rfl, fun hb _ => hb⟩
  | cons equation equations ih =>
    have hfirst := absorbs_settle hs equation
    exact hfirst.trans (ih _ hfirst.valid)

/-- A pass takes the stored equations out and in again. Each of them comes back as what is left of it under the facts
recorded by then, which has the same zeros among the solutions. -/
theorem absorbs_pass {s : EquationSystem} (hs : s.FactsValid) : s.Absorbs [] s.pass.system := by
  have hfold := Pass.absorbs_foldl_settle ⟨{ s with equations := [] }, false⟩
    ⟨hs.value_none, hs.root_lt, hs.root_free⟩ s.equations
  refine ⟨hfold.valid, ⟨hfold.grow.value, hfold.grow.free⟩, fun a => ?_, hfold.numVars, fun hb _ => ?_⟩
  · rw [pass, hfold.solves, solves_iff, solves_iff]
    constructor
    · rintro ⟨⟨-, ha⟩, heqs⟩
      exact ⟨⟨heqs, ⟨ha.value, ha.replacement⟩⟩, List.forall_mem_nil _⟩
    · rintro ⟨⟨heqs, ha⟩, -⟩
      exact ⟨⟨List.forall_mem_nil _, ⟨ha.value, ha.replacement⟩⟩, heqs⟩
  · exact hfold.bounded ⟨fun hp => absurd hp List.not_mem_nil, hb.free⟩ fun p hp => hb.equation hp

theorem propagate_of_progress {s : EquationSystem} (h : s.pass.progress = true) :
    s.propagate = s.pass.system.propagate := by
  rw [propagate, dif_pos h]

theorem propagate_of_not_progress {s : EquationSystem} (h : ¬s.pass.progress = true) :
    s.propagate = s.pass.system := by
  rw [propagate, dif_neg h]

/-- Propagation keeps the facts and changes no solution, by induction over its passes. -/
theorem absorbs_propagate {s : EquationSystem} (hs : s.FactsValid) : s.Absorbs [] s.propagate := by
  induction s using propagate.induct with
  | case1 s hprogress _ ih =>
    rw [propagate_of_progress hprogress]
    exact (absorbs_pass hs).trans (ih (absorbs_pass hs).valid)
  | case2 s hprogress =>
    rw [propagate_of_not_progress hprogress]
    exact absorbs_pass hs

/-- What taking an equation in can do, once room is made for its variables. Adding and learning do the same in all
cases but the last one, in which learning drops the equation. -/
inductive Intake (s : EquationSystem) (p : Polynomial) : Bool × EquationSystem → Prop
  | known (h : s.resolve p = .zero) : Intake s p (false, s)
  | refuted (h : s.resolve p = .one) : Intake s p (true, s.refute)
  | recorded {fact : Fact} (h : fact.States (s.resolve p)) : Intake s p (true, (s.record fact).propagate)
  | repeated (h : s.resolve p ∈ s.equations) : Intake s p (false, s)
  | kept (hzero : s.resolve p ≠ .zero) (hone : s.resolve p ≠ .one)
      (hfact : Fact.ofPolynomial? (s.resolve p) = none) (hnew : s.resolve p ∉ s.equations) :
      Intake s p (true, { s with equations := s.equations ++ [s.resolve p] })

theorem intake_add (s : EquationSystem) (p : Polynomial) : (s.reserve p).Intake p (s.add p) := by
  simp only [add]
  split
  · next hzero => exact .known (Polynomial.eq_zero_of_isZero hzero)
  · next hzero =>
    split
    · next hone => exact .refuted (Polynomial.eq_one_of_isOne hone)
    · next hone =>
      split
      · next fact hfact => exact .recorded (Fact.states_of_ofPolynomial? hfact)
      · next hfact =>
        split
        · next hmem => exact .repeated hmem
        · next hmem => exact .kept (Polynomial.ne_zero_of_isZero hzero) (Polynomial.ne_one_of_isOne hone) hfact hmem

/-- Learning takes an equation in as adding does, or drops it. It drops an equation that states no fact and is no
contradiction, without reporting a change. -/
theorem intake_learn (s : EquationSystem) (p : Polynomial) :
    (s.reserve p).Intake p (s.learn p) ∨ s.learn p = (false, s.reserve p) := by
  simp only [learn]
  split
  · next hzero => exact .inl (.known (Polynomial.eq_zero_of_isZero hzero))
  · next hzero =>
    split
    · next hone => exact .inl (.refuted (Polynomial.eq_one_of_isOne hone))
    · next hone =>
      split
      · next fact hfact => exact .inl (.recorded (Fact.states_of_ofPolynomial? hfact))
      · next hfact =>
        split
        · next hnew =>
          exact .inl (.kept (Polynomial.ne_zero_of_isZero hzero) (Polynomial.ne_one_of_isOne hone) hfact hnew.2)
        · exact .inr rfl

/-- Afterwards the solutions are those from before at which the equation holds, whatever became of it. -/
theorem Intake.absorbs {s : EquationSystem} {p : Polynomial} {r : Bool × EquationSystem} (h : s.Intake p r)
    (hs : s.FactsValid) : s.Absorbs [p] r.2 := by
  cases h with
  | known h => exact absorbs_known hs h
  | refuted h => exact absorbs_refute hs h
  | recorded h =>
    have hrecord := absorbs_record hs h
    exact hrecord.trans (absorbs_propagate hrecord.valid)
  | repeated h => exact absorbs_repeated hs h
  | kept hzero hone hfact hnew => exact absorbs_append hs

end BoolPoly.EquationSystem
