import BoolPoly.Proofs.EquationSystem.Invariant

namespace BoolPoly.EquationSystem

variable {s t u : EquationSystem} {p : Polynomial} {ps qs rs : List Polynomial}

/-- Whether the facts make a polynomial equal to zero or to a listed one. This is what is left of an equation that was
added: it may no longer be stored as it was, since later facts are put into it. -/
def ReducesTo (s : EquationSystem) (ps : List Polynomial) (p : Polynomial) : Prop :=
  ∃ q, (q = .zero ∨ q ∈ ps) ∧ ∀ a, Obeys a s → p.eval a = q.eval a

theorem reducesTo_of_mem (h : p ∈ ps) : s.ReducesTo ps p := ⟨p, .inr h, fun _ _ => rfl⟩

theorem reducesTo_of_resolve (h : s.resolve p = .zero ∨ s.resolve p ∈ ps) : s.ReducesTo ps p :=
  ⟨s.resolve p, h, fun _ ha => (eval_resolve ha p).symm⟩

/-- Whether `t` has the facts of `s`, and its facts reduce to `qs` what those of `s` reduce to `ps`. The lists are
given apart from the systems, as a pass has taken its equations out while it settles them. -/
structure Retains (s : EquationSystem) (ps : List Polynomial) (t : EquationSystem) (qs : List Polynomial) : Prop where
  obeys : ∀ {a}, Obeys a t → Obeys a s
  reduces : ∀ {p}, s.ReducesTo ps p → t.ReducesTo qs p

theorem Retains.refl (s : EquationSystem) (ps : List Polynomial) : s.Retains ps s ps := ⟨id, id⟩

theorem Retains.trans (hst : s.Retains ps t qs) (htu : t.Retains qs u rs) : s.Retains ps u rs :=
  ⟨fun h => hst.obeys (htu.obeys h), fun h => htu.reduces (hst.reduces h)⟩

theorem retains_of_forall_mem (hobeys : ∀ {a}, Obeys a t → Obeys a s) (h : ∀ q ∈ ps, t.ReducesTo qs q) :
    s.Retains ps t qs := by
  refine ⟨hobeys, ?_⟩
  rintro p ⟨q, hq, hpq⟩
  rcases hq with rfl | hq
  · exact ⟨.zero, .inl rfl, fun a ha => hpq a (hobeys ha)⟩
  · obtain ⟨r, hr, hqr⟩ := h q hq
    exact ⟨r, hr, fun a ha => (hpq a (hobeys ha)).trans (hqr a ha)⟩

/-- Whether `t` has the facts and equations of `s`, and the polynomial reduces to its equations. It is what one
equation does in the middle of a pass. -/
structure TakesIn (s : EquationSystem) (p : Polynomial) (t : EquationSystem) : Prop where
  obeys : ∀ {a}, Obeys a t → Obeys a s
  keeps : ∀ q ∈ s.equations, q ∈ t.equations
  reduces : t.ReducesTo t.equations p

/-- Nothing is lost with a polynomial taken in, whatever is still to be taken in: the equations kept so far stay, and
the polynomial reduces to zero or to one of them. -/
theorem TakesIn.retains (h : s.TakesIn p t) (todo : List Polynomial) :
    s.Retains (s.equations ++ p :: todo) t (t.equations ++ todo) := by
  apply retains_of_forall_mem h.obeys
  intro q hq
  rcases List.mem_append.1 hq with hq | hq
  · exact reducesTo_of_mem (List.mem_append_left todo (h.keeps q hq))
  · rcases List.mem_cons.1 hq with rfl | hq
    · obtain ⟨r, hr, hqr⟩ := h.reduces
      exact ⟨r, hr.imp_right (List.mem_append_left todo), hqr⟩
    · exact reducesTo_of_mem (List.mem_append_right _ hq)

theorem takesIn_self (h : s.resolve p = .zero ∨ s.resolve p ∈ s.equations) : s.TakesIn p s :=
  ⟨id, fun _ => id, reducesTo_of_resolve h⟩

theorem takesIn_refute (h : s.resolve p = .one) : s.TakesIn p s.refute where
  obeys ha := ⟨ha.value, ha.replacement⟩
  keeps _ hq := mem_equations_refute.2 (.inl hq)
  reduces := reducesTo_of_resolve (.inr (mem_equations_refute.2 (.inr h)))

theorem takesIn_append : s.TakesIn p { s with equations := s.equations ++ [s.resolve p] } where
  obeys ha := ⟨ha.value, ha.replacement⟩
  keeps _ hq := List.mem_append_left _ hq
  reduces := reducesTo_of_resolve (.inr (List.mem_append_right _ (List.mem_singleton_self _)))

/-- Under the facts with a new one the polynomial that states it is zero. The equations are kept for the next pass,
which puts the fact into them. -/
theorem takesIn_record (hs : s.FactsValid) {fact : Fact} (h : fact.States (s.resolve p)) :
    s.TakesIn p (s.record fact) := by
  have hobeys := fun a => obeys_record hs (about_free_of_states hs h) a
  refine ⟨fun ha => ((hobeys _).1 ha).1, fun q hq => s.equations_record fact ▸ hq, .zero, .inl rfl, ?_⟩
  intro a ha
  obtain ⟨ha, hfact⟩ := (hobeys a).1 ha
  rw [← eval_resolve ha, (h.holds_iff a).1 hfact, Polynomial.eval_zero]

theorem Pass.takesIn_settle {pass : Pass} (hs : pass.system.FactsValid) (equation : Polynomial) :
    pass.system.TakesIn equation (pass.settle equation).system := by
  have hsettles := pass.settles_settle equation
  generalize pass.settle equation = result at hsettles
  cases hsettles with
  | known h => exact takesIn_self (.inl h)
  | refuted h => exact takesIn_refute h
  | recorded h => exact takesIn_record hs h
  | repeated h => exact takesIn_self (.inr h)
  | kept _ _ _ _ => exact takesIn_append

/-- The equations kept so far, with those that are still to be settled, lose nothing from one to the next. The
induction is on the latter. -/
theorem Pass.retains_foldl_settle {start : Pass} (hs : start.system.FactsValid) (equations : List Polynomial) :
    start.system.Retains (start.system.equations ++ equations) (equations.foldl Pass.settle start).system
      (equations.foldl Pass.settle start).system.equations := by
  induction equations generalizing start with
  | nil =>
    rw [List.append_nil]
    exact .refl _ _
  | cons equation equations ih =>
    exact ((takesIn_settle hs equation).retains equations).trans (ih (absorbs_settle hs equation).valid)

/-- A pass takes the stored equations out, but loses none of them: under the facts recorded by the end of the pass
each one is zero or equal to a stored one. -/
theorem retains_pass (hs : s.FactsValid) : s.Retains s.equations s.pass.system s.pass.system.equations := by
  have hstart : (⟨{ s with equations := [] }, false⟩ : Pass).system.FactsValid :=
    ⟨hs.value_none, hs.root_lt, hs.root_free⟩
  have hfold := Pass.retains_foldl_settle hstart s.equations
  refine retains_of_forall_mem (fun {a} ha => ?_) fun q hq => hfold.reduces (reducesTo_of_mem hq)
  have hobeys := hfold.obeys ha
  exact ⟨hobeys.value, hobeys.replacement⟩

theorem retains_propagate (hs : s.FactsValid) : s.Retains s.equations s.propagate s.propagate.equations := by
  induction s using propagate.induct with
  | case1 s hprogress _ ih =>
    rw [propagate_of_progress hprogress]
    exact (retains_pass hs).trans (ih (absorbs_pass hs).valid)
  | case2 s hprogress =>
    rw [propagate_of_not_progress hprogress]
    exact retains_pass hs

/-- Taking a polynomial in loses no equation, and the polynomial is not lost either, whether it is stored, recorded as
a fact or known already. -/
theorem Intake.retains {r : Bool × EquationSystem} (h : s.Intake p r) (hs : s.FactsValid) :
    s.Retains (s.equations ++ [p]) r.2 r.2.equations := by
  have hstep : ∀ {t : EquationSystem}, s.TakesIn p t → s.Retains (s.equations ++ [p]) t t.equations := by
    intro t htakes
    have hretains := htakes.retains []
    rwa [List.append_nil] at hretains
  cases h with
  | known h => exact hstep (takesIn_self (.inl h))
  | refuted h => exact hstep (takesIn_refute h)
  | recorded h =>
    -- the new fact is put into the equations afterwards
    exact (hstep (takesIn_record hs h)).trans (retains_propagate (absorbs_record hs h).valid)
  | repeated h => exact hstep (takesIn_self (.inr h))
  | kept _ _ _ _ => exact hstep takesIn_append

/-- Whether `t` knows everything that `s` knows: its facts, although a replacement may lead elsewhere or have become a
value, its equations by what they reduce to, and its room for variables. -/
structure Remembers (s t : EquationSystem) : Prop where
  grow : FactsGrow s t
  numVars : s.numVars ≤ t.numVars
  retains : s.Retains s.equations t t.equations

theorem Remembers.refl (s : EquationSystem) : s.Remembers s := ⟨.refl s, Nat.le_refl _, .refl _ _⟩

theorem Remembers.trans (hst : s.Remembers t) (htu : t.Remembers u) : s.Remembers u :=
  ⟨hst.grow.trans htu.grow, Nat.le_trans hst.numVars htu.numVars, hst.retains.trans htu.retains⟩

/-- Making room changes neither facts nor equations, so that nothing can be forgotten by it. -/
theorem remembers_reserve (s : EquationSystem) (p : Polynomial) : s.Remembers (s.reserve p) :=
  ⟨⟨id, id⟩, (numVars_reserve s p).1, fun ha => ⟨ha.value, ha.replacement⟩, fun ⟨q, hq, hpq⟩ =>
    ⟨q, hq, fun a ha => hpq a ⟨ha.value, ha.replacement⟩⟩⟩

theorem Intake.remembers {r : Bool × EquationSystem} (h : s.Intake p r) (hs : s.FactsValid) :
    s.Remembers r.2 ∧ r.2.ReducesTo r.2.equations p := by
  have habsorbs := h.absorbs hs
  have hretains := h.retains hs
  refine ⟨⟨habsorbs.grow, Nat.le_of_eq habsorbs.numVars.symm, ?_⟩, ?_⟩
  · exact retains_of_forall_mem hretains.obeys fun q hq =>
      hretains.reduces (reducesTo_of_mem (List.mem_append_left _ hq))
  · exact hretains.reduces (reducesTo_of_mem (List.mem_append_right _ (List.mem_singleton_self p)))

/-- Whether `t` knows a polynomial and has room for its variables, so that taking the polynomial in once more would
change nothing at all. -/
structure Knows (t : EquationSystem) (p : Polynomial) : Prop where
  lt : ∀ v ∈ p.vars, v < t.numVars
  reduces : t.ReducesTo t.equations p

theorem Knows.later (h : s.Knows p) (hst : s.Remembers t) : t.Knows p :=
  ⟨fun v hv => Nat.lt_of_lt_of_le (h.lt v hv) hst.numVars, hst.retains.reduces h.reduces⟩

theorem remembers_add (hs : s.Valid) (p : Polynomial) : s.Remembers (s.add p).2 ∧ (s.add p).2.Knows p := by
  obtain ⟨hremembers, hreduces⟩ := (intake_add s p).remembers (hs.reserve p).facts
  refine ⟨(remembers_reserve s p).trans hremembers, fun v hv => ?_, hreduces⟩
  exact Nat.lt_of_lt_of_le ((numVars_reserve s p).2 v hv) hremembers.numVars

theorem remembers_learn (hs : s.Valid) (p : Polynomial) :
    s.Remembers (s.learn p).2 ∧ ((s.learn p).1 = true → (s.learn p).2.Knows p) := by
  cases intake_learn s p with
  | inl hintake =>
    obtain ⟨hremembers, hreduces⟩ := hintake.remembers (hs.reserve p).facts
    refine ⟨(remembers_reserve s p).trans hremembers, fun _ => ⟨fun v hv => ?_, hreduces⟩⟩
    exact Nat.lt_of_lt_of_le ((numVars_reserve s p).2 v hv) hremembers.numVars
  | inr hdropped =>
    rw [hdropped]
    exact ⟨remembers_reserve s p, nofun⟩

/-- The systems that adding and learning lead to from `s`, by any polynomials and in any order. Nothing is asked of
their indices, so this includes every run in which all of them can be counted. -/
inductive Later (s : EquationSystem) : EquationSystem → Prop
  | refl : Later s s
  | add {t : EquationSystem} (h : Later s t) (p : Polynomial) : Later s (t.add p).2
  | learn {t : EquationSystem} (h : Later s t) (p : Polynomial) : Later s (t.learn p).2

theorem Later.valid (h : s.Later t) (hs : s.Valid) : t.Valid := by
  induction h with
  | refl => exact hs
  | add _ p ih => exact ih.add p
  | learn _ p ih => exact ih.learn p

/-- Nothing is forgotten in a run of adding and learning. An assignment that obeys the later facts obeys the earlier
ones, and under the later facts every earlier equation is zero or equal to a stored one. -/
theorem Later.remembers (h : s.Later t) (hs : s.Valid) : s.Remembers t := by
  induction h with
  | refl => exact .refl s
  | add h p ih => exact ih.trans (remembers_add (h.valid hs) p).1
  | learn h p ih => exact ih.trans (remembers_learn (h.valid hs) p).1

/-- With nothing left to be done a polynomial that reduces to the equations is resolved to one of them, or to zero:
resolved polynomials with the same values are the same. -/
theorem ReducesTo.resolve (h : s.ReducesTo s.equations p) (hfacts : s.FactsValid) (hsettled : s.Settled) :
    s.resolve p = .zero ∨ s.resolve p ∈ s.equations := by
  obtain ⟨q, hq, hpq⟩ := h
  rw [(resolve_eq_resolve_iff hfacts).2 hpq]
  rcases hq with rfl | hq
  · exact .inl resolve_zero
  · rw [resolve_of_free (hsettled.free hq)]
    exact .inr hq

/-- What is resolved to zero stays so, because the facts that make it zero are still implied by the later ones. -/
theorem Remembers.resolve_eq_zero (h : s.Remembers t) (ht : t.FactsValid) (hzero : s.resolve p = .zero) :
    t.resolve p = .zero := by
  rw [← resolve_zero (s := t), resolve_eq_resolve_iff ht]
  intro a ha
  rw [← eval_resolve (h.retains.obeys ha), hzero]

/-- A contradiction stays: the constant one reduces to no other equation. -/
theorem Remembers.consistent_eq_false (h : s.Remembers t) (hs : s.Valid) (ht : t.Valid)
    (hfalse : s.consistent = false) : t.consistent = false := by
  have hone := (h.retains.reduces (reducesTo_of_mem (hs.flagged.1 hfalse))).resolve ht.facts ht.settled
  rw [resolve_one] at hone
  exact ht.flagged.2 (hone.resolve_left (by decide))

/-- Recorded facts are never retracted or altered. In every later system of a run, contradictory or not, a value is
the same, a replaced variable is replaced or has got a value, a polynomial that the facts make zero is zero, there are
at least as many variables, and a contradiction is still one. -/
theorem Reachable.later_keeps_facts (hs : s.Reachable) (hst : s.Later t) :
    (∀ v b, s.value? v = some b → t.value? v = some b) ∧
    (∀ v r, s.replacement? v = some r → (∃ q, t.replacement? v = some q) ∨ ∃ b, t.value? v = some b) ∧
    (∀ p, s.resolve p = .zero → t.resolve p = .zero) ∧ s.numVars ≤ t.numVars ∧
    (s.consistent = false → t.consistent = false) := by
  have hremembers := hst.remembers hs.valid
  have ht := hst.valid hs.valid
  refine ⟨fun v b => hremembers.grow.value, fun v r hr => ?_, fun p => hremembers.resolve_eq_zero ht.facts,
    hremembers.numVars, hremembers.consistent_eq_false hs.valid ht⟩
  by_contra hnot
  -- the variable would be free now, and was then free before
  obtain ⟨hreplacement, hvalue⟩ := not_or.1 hnot
  have hfree : t.Free v := ⟨Option.eq_none_iff_forall_ne_some.2 fun b hb => hvalue ⟨b, hb⟩,
    Option.eq_none_iff_forall_ne_some.2 fun q hq => hreplacement ⟨q, hq⟩⟩
  rw [(hremembers.grow.free hfree).2] at hr
  cases hr

/-- The value zero overwrites the replacement of `x2` by `x1`, and the value one for `x2` is then a contradiction. -/
theorem Reachable.later_keeps_facts_contradicted :
    let s := ofPolynomials [.sum [.ofVars [0, 3], .ofVar 4], .sum [.ofVar 1, .ofVar 2]]
    let t := ((s.add (.ofVar 1)).2.learn (.sum [.ofVar 2, .one])).2
    s.Reachable ∧ s.Later t ∧
    (∀ v b, s.value? v = some b → t.value? v = some b) ∧
    (∀ v r, s.replacement? v = some r → (∃ q, t.replacement? v = some q) ∨ ∃ b, t.value? v = some b) ∧
    (∀ p, s.resolve p = .zero → t.resolve p = .zero) ∧ s.numVars ≤ t.numVars ∧
    (s.consistent = false → t.consistent = false) := by
  intro s t
  have hs : s.Reachable := reachable_ofPolynomials (by decide)
  have hst : s.Later t := (Later.refl.add _).learn _
  exact ⟨hs, hst, hs.later_keeps_facts hst⟩

/-- In a consistent system adding or learning a polynomial that it knows does nothing, and says so. In a contradictory
one a polynomial that is resolved to the constant one is reported again. -/
theorem Knows.add_learn (h : t.Knows p) (ht : t.Valid) (hconsistent : t.consistent = true) :
    t.add p = (false, t) ∧ t.learn p = (false, t) := by
  unfold EquationSystem.add EquationSystem.learn
  simp only [reserve_of_lt h.lt]
  rcases h.reduces.resolve ht.facts ht.settled with hzero | hmem
  · rw [hzero]
    exact ⟨rfl, rfl⟩
  · have hzero : (t.resolve p).isZero = false :=
      Bool.eq_false_iff.2 fun hz => ht.settled.ne_zero hmem (Polynomial.eq_zero_of_isZero hz)
    have hone : (t.resolve p).isOne = false := by
      rw [Bool.eq_false_iff]
      intro hone
      rw [Polynomial.eq_one_of_isOne hone] at hmem
      rw [ht.flagged.2 hmem] at hconsistent
      cases hconsistent
    simp only [hzero, hone, ht.settled.no_fact hmem, hmem, Bool.false_eq_true, if_false, if_true, not_true_eq_false,
      and_false, and_self]

/-- Nothing that is known is added or learnt again. Once a polynomial was added, or was learnt with a change, adding
and learning it answer that nothing changes, and leave the system as it is, in every later system that is
consistent. -/
theorem Reachable.add_learn_again (hs : s.Reachable) (p : Polynomial) :
    (∀ t, (s.add p).2.Later t → t.consistent = true → t.add p = (false, t) ∧ t.learn p = (false, t)) ∧
    ((s.learn p).1 = true → ∀ t, (s.learn p).2.Later t → t.consistent = true →
      t.add p = (false, t) ∧ t.learn p = (false, t)) := by
  constructor
  · intro t hlater
    have hvalid := hs.valid.add p
    exact ((remembers_add hs.valid p).2.later (hlater.remembers hvalid)).add_learn (hlater.valid hvalid)
  · intro hchanged t hlater
    have hvalid := hs.valid.learn p
    exact (((remembers_learn hs.valid p).2 hchanged).later (hlater.remembers hvalid)).add_learn (hlater.valid hvalid)

/-- A replacement turns the equation `x0 + x1 + x2` into a value of `x2`, and it is not added or learnt again. -/
theorem Reachable.add_learn_again_rewritten :
    let s := ofPolynomials [.sum [.ofVars [0, 3], .ofVar 4]]
    let p : Polynomial := .sum [.ofVar 0, .ofVar 1, .ofVar 2]
    let t := ((s.learn p).2.add (.sum [.ofVar 0, .ofVar 1])).2
    s.Reachable ∧ (s.learn p).1 = true ∧ (s.add p).2.Later t ∧ (s.learn p).2.Later t ∧ t.consistent = true ∧
    t.add p = (false, t) ∧ t.learn p = (false, t) := by
  intro s p t
  have hs : s.Reachable := reachable_ofPolynomials (by decide)
  have hchanged : (s.learn p).1 = true := by decide
  have hsame : s.add p = s.learn p := by decide
  have hlearnt : (s.learn p).2.Later t := Later.refl.add _
  have hadded : (s.add p).2.Later t := hsame ▸ hlearnt
  -- every variable may be zero
  have hsolves : Solves (fun _ => false) t := by
    refine (solves_add (hs.valid.learn p)).2 ⟨?_, rfl⟩
    rw [← hsame]
    exact (solves_add hs.valid).2 ⟨solves_ofPolynomials.2 (List.forall_mem_singleton.2 rfl), rfl⟩
  have hconsistent := hsolves.consistent ((hs.learn (by decide)).add (by decide)).valid
  refine ⟨hs, hchanged, hadded, hlearnt, hconsistent, ?_⟩
  exact (hs.add_learn_again p).2 hchanged t hlearnt hconsistent

end BoolPoly.EquationSystem
