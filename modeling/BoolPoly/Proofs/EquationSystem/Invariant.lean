import BoolPoly.Proofs.EquationSystem.Solutions

open Std

namespace BoolPoly.EquationSystem

/-- The systems that adding and learning lead to from the empty one. A polynomial comes in only if its variables can
be counted, see `addCounted?` and `learnCounted?`: the variable of the greatest 32-bit index occurs in no reachable
system. -/
inductive Reachable : EquationSystem → Prop
  | empty : Reachable .empty
  | add {s : EquationSystem} (hs : Reachable s) {p : Polynomial} (hp : p.Countable) : Reachable (s.add p).2
  | learn {s : EquationSystem} (hs : Reachable s) {p : Polynomial} (hp : p.Countable) : Reachable (s.learn p).2

theorem addCounted?_eq_some_iff {s : EquationSystem} {p : Polynomial} {r : Bool × EquationSystem} :
    s.addCounted? p = some r ↔ p.Countable ∧ s.add p = r := by
  rw [addCounted?, Option.ite_none_right_eq_some, Option.some.injEq]

theorem learnCounted?_eq_some_iff {s : EquationSystem} {p : Polynomial} {r : Bool × EquationSystem} :
    s.learnCounted? p = some r ↔ p.Countable ∧ s.learn p = r := by
  rw [learnCounted?, Option.ite_none_right_eq_some, Option.some.injEq]

/-- Whether nothing is left to be done about the stored equations: they are about free variables, none of them is zero
or states a fact, and none is stored twice. -/
structure Settled (s : EquationSystem) : Prop where
  free : ∀ {p : Polynomial}, p ∈ s.equations → ∀ v ∈ p.vars, s.Free v
  ne_zero : ∀ {p : Polynomial}, p ∈ s.equations → p ≠ .zero
  no_fact : ∀ {p : Polynomial}, p ∈ s.equations → Fact.ofPolynomial? p = none
  nodup : s.equations.Nodup

/-- Whether the flag tells the truth about the stored equations: the system is marked contradictory just if the
constant one is among them. -/
def Flagged (s : EquationSystem) : Prop := s.consistent = false ↔ .one ∈ s.equations

/-- The representation invariant. The facts are valid, everything is about variables that there is room for, nothing
is left to be done about the equations, and the flag tells the truth about them. -/
structure Valid (s : EquationSystem) : Prop where
  facts : s.FactsValid
  bounded : s.Bounded
  settled : s.Settled
  flagged : s.Flagged

section Settled

variable {s : EquationSystem}

theorem free_of_mem_vars_one {v : Var} (hv : v ∈ Polynomial.one.vars) : s.Free v :=
  absurd hv Polynomial.not_mem_vars_constant

theorem settled_of_nil (h : s.equations = []) : s.Settled := by
  have hnone : ∀ {p : Polynomial}, p ∉ s.equations := by
    intro p hp
    rw [h] at hp
    exact List.not_mem_nil hp
  exact ⟨fun hp => absurd hp hnone, fun hp => absurd hp hnone, fun hp => absurd hp hnone, h ▸ List.nodup_nil⟩

theorem Settled.refute (hs : s.Settled) : s.refute.Settled := by
  have hmem : ∀ {q : Polynomial}, q ∈ s.refute.equations → q ∈ s.equations ∨ q = .one := mem_equations_refute.1
  constructor
  · intro q hq v hv
    rcases hmem hq with hq | rfl
    · exact hs.free hq v hv
    · exact free_of_mem_vars_one hv
  · intro q hq
    rcases hmem hq with hq | rfl
    · exact hs.ne_zero hq
    · decide
  · intro q hq
    rcases hmem hq with hq | rfl
    · exact hs.no_fact hq
    · decide
  · unfold EquationSystem.refute
    by_cases hone : .one ∈ s.equations
    · rw [if_pos hone]
      exact hs.nodup
    · rw [if_neg hone]
      exact List.nodup_append.2 ⟨hs.nodup, List.pairwise_singleton _ _, fun q hq r hr heq =>
        hone (List.mem_singleton.1 hr ▸ heq ▸ hq)⟩

theorem Settled.append (hs : s.Settled) (hvalid : s.FactsValid) {p : Polynomial}
    (hzero : s.resolve p ≠ .zero) (hfact : Fact.ofPolynomial? (s.resolve p) = none)
    (hnew : s.resolve p ∉ s.equations) :
    Settled { s with equations := s.equations ++ [s.resolve p] } := by
  have hmem : ∀ {q : Polynomial}, q ∈ s.equations ++ [s.resolve p] → q ∈ s.equations ∨ q = s.resolve p := by
    intro q hq
    exact (List.mem_append.1 hq).imp_right List.mem_singleton.1
  constructor
  · intro q hq v hv
    rcases hmem hq with hq | rfl
    · exact hs.free hq v hv
    · exact free_of_mem_vars_resolve hvalid hv
  · intro q hq
    rcases hmem hq with hq | rfl
    · exact hs.ne_zero hq
    · exact hzero
  · intro q hq
    rcases hmem hq with hq | rfl
    · exact hs.no_fact hq
    · exact hfact
  · exact List.nodup_append.2 ⟨hs.nodup, List.pairwise_singleton _ _, fun q hq r hr heq =>
      hnew (List.mem_singleton.1 hr ▸ heq ▸ hq)⟩

theorem Pass.progress_of_settle {pass : Pass} {equation : Polynomial}
    (h : (pass.settle equation).progress = false) : pass.progress = false := by
  have hsettles := pass.settles_settle equation
  generalize pass.settle equation = result at hsettles h
  cases hsettles with
  | known _ => exact h
  | refuted _ => exact h
  | recorded _ => cases h
  | repeated _ => exact h
  | kept _ _ _ _ => exact h

theorem Pass.progress_of_foldl_settle {equations : List Polynomial} {start : Pass}
    (h : (equations.foldl Pass.settle start).progress = false) : start.progress = false := by
  induction equations generalizing start with
  | nil => exact h
  | cons equation equations ih => exact progress_of_settle (ih h)

/-- Without a new fact the equations kept so far need no second look: their variables are still free, and an equation
that is kept is resolved and new. -/
theorem Pass.settled_settle {pass : Pass} (hs : pass.system.Settled) (hvalid : pass.system.FactsValid)
    {equation : Polynomial} (hprogress : (pass.settle equation).progress = false) :
    (pass.settle equation).system.Settled := by
  have hsettles := pass.settles_settle equation
  generalize pass.settle equation = result at hsettles hprogress
  cases hsettles with
  | known _ => exact hs
  | refuted _ => exact hs.refute
  | recorded _ => cases hprogress
  | repeated _ => exact hs
  | kept hzero hone hfact hnew => exact hs.append hvalid hzero hfact hnew

theorem Pass.settled_foldl_settle {equations : List Polynomial} {start : Pass} (hs : start.system.Settled)
    (hvalid : start.system.FactsValid) (hprogress : (equations.foldl Pass.settle start).progress = false) :
    (equations.foldl Pass.settle start).system.Settled := by
  induction equations generalizing start with
  | nil => exact hs
  | cons equation equations ih =>
    have hfirst : (start.settle equation).progress = false := progress_of_foldl_settle hprogress
    exact ih (settled_settle hs hvalid hfirst) (absorbs_settle hvalid equation).valid hprogress

/-- Propagation ends when a pass records nothing, and leaves the equations settled. What they were before does not
matter, because a pass takes all of them out and in again. -/
theorem settled_propagate (hs : s.FactsValid) : s.propagate.Settled := by
  induction s using propagate.induct with
  | case1 s hprogress _ ih =>
    rw [propagate_of_progress hprogress]
    exact ih (absorbs_pass hs).valid
  | case2 s hprogress =>
    rw [propagate_of_not_progress hprogress]
    exact Pass.settled_foldl_settle (settled_of_nil rfl) ⟨hs.value_none, hs.root_lt, hs.root_free⟩
      (Bool.not_eq_true _ ▸ hprogress)

end Settled

section Flagged

variable {s : EquationSystem}

theorem resolve_one : s.resolve .one = .one := resolve_constant true

/-- The constant one is a contradiction and states no fact. -/
theorem not_states_one {fact : Fact} : ¬fact.States .one := by
  intro hfact
  have hterms : Polynomial.one.terms = [] := by decide
  cases hfact with
  | value h => cases hterms.symm.trans h
  | allOne h _ => cases hterms.symm.trans h
  | equal h => cases hterms.symm.trans h

theorem Flagged.record (h : s.Flagged) (fact : Fact) : (s.record fact).Flagged := by
  rw [Flagged, s.equations_record, (s.frame_record fact).2]
  exact h

theorem flagged_refute : s.refute.Flagged := ⟨fun _ => mem_equations_refute.2 (.inr rfl), fun _ => rfl⟩

/-- The flag while equations are still to be settled: the constant one may be among those, and the flag may have been
cleared on its account already. -/
def FlaggedWith (s : EquationSystem) (remaining : List Polynomial) : Prop :=
  (s.consistent = false → .one ∈ s.equations ∨ .one ∈ remaining) ∧ (.one ∈ s.equations → s.consistent = false)

theorem Pass.flagged_settle {pass : Pass} {equation : Polynomial} {remaining : List Polynomial}
    (h : pass.system.FlaggedWith (equation :: remaining)) :
    (pass.settle equation).system.FlaggedWith remaining := by
  -- the constant one is not lost when its turn comes
  have hturn : ∀ {t : EquationSystem}, (equation = .one → .one ∈ t.equations) →
      (.one ∈ pass.system.equations → .one ∈ t.equations) → t.consistent = pass.system.consistent →
      t.consistent = false → .one ∈ t.equations ∨ .one ∈ remaining := by
    intro t hone hkeep hflag hfalse
    rcases h.1 (hflag ▸ hfalse) with hmem | hmem
    · exact .inl (hkeep hmem)
    · rcases List.mem_cons.1 hmem with heq | hmem
      · exact .inl (hone heq.symm)
      · exact .inr hmem
  have hsettles := pass.settles_settle equation
  generalize pass.settle equation = result at hsettles
  cases hsettles with
  | known hzero =>
    refine ⟨hturn ?_ id rfl, h.2⟩
    rintro rfl
    rw [resolve_one] at hzero
    exact absurd hzero (by decide)
  | refuted _ => exact ⟨fun hfalse => .inl (flagged_refute.1 hfalse), flagged_refute.2⟩
  | recorded hfact =>
    have hequations := pass.system.equations_record
    have hflag := fun fact => (pass.system.frame_record fact).2
    refine ⟨hturn ?_ (fun hmem => hequations _ ▸ hmem) (hflag _), fun hmem => ?_⟩
    · rintro rfl
      rw [resolve_one] at hfact
      exact absurd hfact not_states_one
    · exact (hflag _).trans (h.2 (hequations _ ▸ hmem))
  | repeated hmem =>
    refine ⟨hturn ?_ id rfl, h.2⟩
    rintro rfl
    rwa [resolve_one] at hmem
  | kept hzero hone hfact hnew =>
    refine ⟨hturn ?_ (List.mem_append_left _) rfl, fun hmem => ?_⟩
    · rintro rfl
      exact absurd resolve_one hone
    · rcases List.mem_append.1 hmem with hmem | hmem
      · exact h.2 hmem
      · exact absurd (List.mem_singleton.1 hmem).symm hone

theorem Pass.flagged_foldl_settle (start : Pass) (equations : List Polynomial)
    (h : start.system.FlaggedWith equations) : (equations.foldl Pass.settle start).system.FlaggedWith [] := by
  induction equations generalizing start with
  | nil => exact h
  | cons equation equations ih => exact ih _ (flagged_settle h)

theorem Flagged.pass (h : s.Flagged) : s.pass.system.Flagged := by
  have hend := Pass.flagged_foldl_settle ⟨{ s with equations := [] }, false⟩ s.equations
    ⟨fun hfalse => .inr (h.1 hfalse), fun hone => absurd hone List.not_mem_nil⟩
  exact ⟨fun hfalse => (hend.1 hfalse).resolve_right List.not_mem_nil, hend.2⟩

theorem Flagged.propagate (h : s.Flagged) : s.propagate.Flagged := by
  induction s using propagate.induct with
  | case1 s hprogress _ ih =>
    rw [propagate_of_progress hprogress]
    exact ih h.pass
  | case2 s hprogress =>
    rw [propagate_of_not_progress hprogress]
    exact h.pass

end Flagged

/-- Making room gives the least number of variables with room for the polynomial. -/
theorem numVars_reserve_le_iff {s : EquationSystem} {p : Polynomial} {n : Nat} :
    (s.reserve p).numVars ≤ n ↔ s.numVars ≤ n ∧ ∀ v ∈ p.vars, v < n := by
  have hfold : ∀ (vs : List Var) (m : Nat),
      vs.foldl (fun m v => max m (v + 1)) m ≤ n ↔ m ≤ n ∧ ∀ v ∈ vs, v < n := by
    intro vs
    induction vs with
    | nil => simp
    | cons v vs ih =>
      intro m
      rw [List.foldl_cons, ih, List.forall_mem_cons, Nat.max_le, and_assoc]
      rfl
  exact hfold p.vars.toList s.numVars

theorem numVars_reserve (s : EquationSystem) (p : Polynomial) :
    s.numVars ≤ (s.reserve p).numVars ∧ ∀ v ∈ p.vars, v < (s.reserve p).numVars :=
  numVars_reserve_le_iff.1 (Nat.le_refl _)

/-- No room has to be made for variables that are there, so that what is derived from a system changes nothing but its
facts, equations and flag. -/
theorem reserve_of_lt {s : EquationSystem} {p : Polynomial} (h : ∀ v ∈ p.vars, v < s.numVars) :
    s.reserve p = s := by
  have hnum : (s.reserve p).numVars = s.numVars :=
    Nat.le_antisymm (numVars_reserve_le_iff.2 ⟨Nat.le_refl _, h⟩) (numVars_reserve s p).1
  change { s with numVars := (s.reserve p).numVars } = s
  rw [hnum]

theorem Valid.reserve {s : EquationSystem} (hs : s.Valid) (p : Polynomial) : (s.reserve p).Valid := by
  have hle := (numVars_reserve s p).1
  refine ⟨⟨hs.facts.value_none, hs.facts.root_lt, hs.facts.root_free⟩, ⟨?_, ?_⟩,
    ⟨hs.settled.free, hs.settled.ne_zero, hs.settled.no_fact, hs.settled.nodup⟩, hs.flagged⟩
  · intro q hq v hv
    exact Nat.lt_of_lt_of_le (hs.bounded.equation hq v hv) hle
  · intro v hv
    exact hs.bounded.free (Nat.le_trans hle hv)

/-- Taking in an equation over variables that are there keeps the invariant, in each of the five ways in which it can
go on. -/
theorem Intake.valid {s : EquationSystem} {p : Polynomial} {r : Bool × EquationSystem} (h : s.Intake p r)
    (hs : s.Valid) (hp : ∀ v ∈ p.vars, v < s.numVars) : r.2.Valid := by
  have habsorbs := h.absorbs hs.facts
  have hvars : ∀ q ∈ [p], ∀ v ∈ q.vars, v < s.numVars := List.forall_mem_singleton.2 hp
  cases h with
  | known _ => exact hs
  | refuted _ => exact ⟨habsorbs.valid, habsorbs.bounded hs.bounded hvars, hs.settled.refute, flagged_refute⟩
  | @recorded fact h =>
    exact ⟨habsorbs.valid, habsorbs.bounded hs.bounded hvars, settled_propagate (absorbs_record hs.facts h).valid,
      (hs.flagged.record fact).propagate⟩
  | kept hzero hone hfact hnew =>
    refine ⟨habsorbs.valid, habsorbs.bounded hs.bounded hvars, hs.settled.append hs.facts hzero hfact hnew,
      fun hfalse => List.mem_append_left _ (hs.flagged.1 hfalse), fun hmem => ?_⟩
    rcases List.mem_append.1 hmem with hmem | hmem
    · exact hs.flagged.2 hmem
    · exact absurd (List.mem_singleton.1 hmem).symm hone
  | repeated _ => exact hs

theorem valid_empty : empty.Valid := by
  have hvalue : ∀ v, empty.value? v = none := fun _ => rfl
  have hreplacement : ∀ v, empty.replacement? v = none := fun _ => rfl
  have hnone : ∀ {p : Polynomial}, p ∉ empty.equations := List.not_mem_nil
  refine ⟨⟨?_, ?_, ?_⟩, ⟨fun hp => absurd hp hnone, fun _ => ⟨hvalue _, hreplacement _⟩⟩, settled_of_nil rfl,
    fun hfalse => Bool.noConfusion hfalse, fun hone => absurd hone hnone⟩
  · intro v r hr
    exact hvalue v
  · intro v r hr
    rw [hreplacement] at hr
    cases hr
  · intro v r hr
    rw [hreplacement] at hr
    cases hr

theorem Valid.add {s : EquationSystem} (hs : s.Valid) (p : Polynomial) : (s.add p).2.Valid :=
  (intake_add s p).valid (hs.reserve p) (numVars_reserve s p).2

theorem Valid.learn {s : EquationSystem} (hs : s.Valid) (p : Polynomial) : (s.learn p).2.Valid := by
  rcases intake_learn s p with hintake | hdropped
  · exact hintake.valid (hs.reserve p) (numVars_reserve s p).2
  · rw [hdropped]
    exact hs.reserve p

/-- The invariant holds of every system that adding and learning lead to. No bound on the indices is needed for it:
the plain operations keep the invariant as well. -/
theorem Reachable.valid {s : EquationSystem} (hs : s.Reachable) : s.Valid := by
  induction hs with
  | empty => exact valid_empty
  | add _ _ ih => exact ih.add _
  | learn _ _ ih => exact ih.learn _

theorem numVars_add {s : EquationSystem} (hs : s.Valid) (p : Polynomial) :
    (s.add p).2.numVars = (s.reserve p).numVars :=
  ((intake_add s p).absorbs (hs.reserve p).facts).numVars

theorem numVars_learn {s : EquationSystem} (hs : s.Valid) (p : Polynomial) :
    (s.learn p).2.numVars = (s.reserve p).numVars := by
  cases intake_learn s p with
  | inl hintake => exact (hintake.absorbs (hs.reserve p).facts).numVars
  | inr hdropped => rw [hdropped]

/-- The number of variables of a reachable system fits a 32-bit word, because every variable that came in could be
counted. -/
theorem Reachable.numVars_lt {s : EquationSystem} (hs : s.Reachable) : s.numVars < UInt32.size := by
  have hroom : ∀ {t : EquationSystem} {p : Polynomial}, t.numVars < UInt32.size → p.Countable →
      (t.reserve p).numVars < UInt32.size := by
    intro t p ht hp
    refine Nat.lt_succ_of_le (numVars_reserve_le_iff.2 ⟨Nat.le_of_lt_succ ht, fun v hv => ?_⟩)
    exact Nat.lt_of_succ_lt_succ (hp v hv)
  induction hs with
  | empty => decide
  | add hs hp ih =>
    rw [numVars_add hs.valid]
    exact hroom ih hp
  | learn hs hp ih =>
    rw [numVars_learn hs.valid]
    exact hroom ih hp

/-- A polynomial about the variables of a reachable system can come in, so that what is derived from a system can be
learnt in it without an overflow. -/
theorem Reachable.countable {s : EquationSystem} (hs : s.Reachable) {p : Polynomial}
    (hp : ∀ v ∈ p.vars, v < s.numVars) : p.Countable :=
  fun v hv => Nat.lt_of_le_of_lt (hp v hv) hs.numVars_lt

theorem solves_reserve {s : EquationSystem} {p : Polynomial} {a : Var → Bool} :
    Solves a (s.reserve p) ↔ Solves a s := Iff.rfl

/-- Adding an equation keeps just the solutions at which it holds, whether it is stored, recorded as a fact or
refuted. -/
theorem solves_add {s : EquationSystem} (hs : s.Valid) {p : Polynomial} {a : Var → Bool} :
    Solves a (s.add p).2 ↔ Solves a s ∧ p.eval a = false := by
  rw [((intake_add s p).absorbs (hs.reserve p).facts).solves, solves_reserve, List.forall_mem_singleton]

theorem not_solves_of_inconsistent {s : EquationSystem} (hs : s.Valid) (hconsistent : s.consistent = false)
    (a : Var → Bool) : ¬Solves a s := by
  intro ha
  have hone := (solves_iff.1 ha).1 .one (hs.flagged.1 hconsistent)
  rw [Polynomial.eval_one] at hone
  cases hone

theorem Solves.consistent {a : Var → Bool} {s : EquationSystem} (ha : Solves a s) (hs : s.Valid) :
    s.consistent = true := by
  by_contra hfalse
  exact not_solves_of_inconsistent hs (Bool.eq_false_iff.2 hfalse) a ha

/-- The system of a list of polynomials, added one after the other. -/
def ofPolynomials (ps : List Polynomial) : EquationSystem := ps.foldl (fun s p => (s.add p).2) .empty

/-- The system of a list of polynomials, provided that the variables of each one can be counted. -/
def ofPolynomials? (ps : List Polynomial) : Option EquationSystem :=
  ps.foldlM (fun s p => (s.addCounted? p).map Prod.snd) .empty

theorem foldlM_addCounted?_eq_some_iff {s t : EquationSystem} {ps : List Polynomial} :
    ps.foldlM (fun s p => (s.addCounted? p).map Prod.snd) s = some t ↔
      (∀ p ∈ ps, p.Countable) ∧ ps.foldl (fun s p => (s.add p).2) s = t := by
  induction ps generalizing s with
  | nil => simp
  | cons p ps ih =>
    rw [List.foldlM_cons, List.foldl_cons, List.forall_mem_cons, and_assoc, ← ih, addCounted?]
    by_cases hp : p.Countable
    · simp [hp]
    · simp [hp]

/-- The system of a list is the plain one just if every polynomial of the list can come in. Otherwise the list is
refused as a whole. -/
theorem ofPolynomials?_eq_some_iff {ps : List Polynomial} {s : EquationSystem} :
    ofPolynomials? ps = some s ↔ (∀ p ∈ ps, p.Countable) ∧ ofPolynomials ps = s :=
  foldlM_addCounted?_eq_some_iff

theorem reachable_ofPolynomials {ps : List Polynomial} (hps : ∀ p ∈ ps, p.Countable) : (ofPolynomials ps).Reachable :=
  List.foldlRecOn (motive := Reachable) ps _ .empty fun _ hs p hp => hs.add (hps p hp)

theorem solves_empty (a : Var → Bool) : Solves a .empty := List.forall_mem_nil _

theorem valid_foldl_add {s : EquationSystem} (hs : s.Valid) (ps : List Polynomial) :
    (ps.foldl (fun s p => (s.add p).2) s).Valid ∧
    ∀ a, Solves a (ps.foldl (fun s p => (s.add p).2) s) ↔ Solves a s ∧ ∀ p ∈ ps, p.eval a = false := by
  induction ps generalizing s with
  | nil => exact ⟨hs, fun a => by simp⟩
  | cons p ps ih =>
    obtain ⟨hvalid, hsolves⟩ := ih (hs.add p)
    refine ⟨hvalid, fun a => ?_⟩
    rw [List.foldl_cons, hsolves, solves_add hs, List.forall_mem_cons, and_assoc]

theorem valid_ofPolynomials (ps : List Polynomial) : (ofPolynomials ps).Valid := (valid_foldl_add valid_empty ps).1

/-- The solutions of the system are the common zeros of the polynomials, although few of these may be stored as they
were added. -/
theorem solves_ofPolynomials {ps : List Polynomial} {a : Var → Bool} :
    Solves a (ofPolynomials ps) ↔ ∀ p ∈ ps, p.eval a = false := by
  rw [ofPolynomials, (valid_foldl_add valid_empty ps).2]
  exact and_iff_right (solves_empty a)

end BoolPoly.EquationSystem
