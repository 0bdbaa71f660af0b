import BoolPoly.Proofs.EquationSystem.Invariant

namespace BoolPoly.EquationSystem

/-- Records a value, provided that nothing is recorded about the variable. Without the guard a second value would be
written over the first one. -/
def assign? (s : EquationSystem) (v : Var) (b : Bool) : Option EquationSystem :=
  if s.value? v = none ∧ s.replacement? v = none then some (s.assign v b) else none

/-- Records a replacement, provided that the variable does not replace itself: its root would not be free
otherwise. -/
def replace? (s : EquationSystem) (v : Var) (r : Replacement) : Option EquationSystem :=
  if v ≠ r.root then some (s.replace v r) else none

/-- Records a fact with the guards of its values, one after the other, or of its replacement. -/
def record? (s : EquationSystem) : Fact → Option EquationSystem
  | .value v b => s.assign? v b
  | .allOne m => m.varList.foldlM (fun s v => s.assign? v true) s
  | .equal v r => s.replace? v r

/-- Takes one equation into account. Only a fact that it states has guards; a known equation and a contradiction
record nothing. -/
def Pass.settle? (pass : Pass) (equation : Polynomial) : Option Pass :=
  match Fact.ofPolynomial? (pass.system.resolve equation) with
  | some fact => (pass.system.record? fact).map fun s => { system := s, progress := true }
  | none => some (pass.settle equation)

/-- Takes every equation into account once, with guards. The guards are checked at every fact that is recorded, also
in the middle of the pass. -/
def pass? (s : EquationSystem) : Option Pass :=
  s.equations.foldlM Pass.settle? ⟨{ s with equations := [] }, false⟩

/-- Steps that agree with plain ones where they succeed agree with them from end to end. So a guarded run that comes
to a result comes to the plain one. -/
theorem eq_foldl_of_foldlM {σ α : Type} {step? : σ → α → Option σ} {step : σ → α → σ}
    (hstep : ∀ {s a t}, step? s a = some t → t = step s a) {l : List α} {s t : σ} (h : l.foldlM step? s = some t) :
    t = l.foldl step s := by
  induction l generalizing s with
  | nil => exact (Option.some.inj h).symm
  | cons a l ih =>
    obtain ⟨s', hfirst, hrest⟩ := Option.bind_eq_some_iff.1 h
    rw [List.foldl_cons, ← hstep hfirst]
    exact ih hrest

theorem eq_assign_of_assign? {s t : EquationSystem} {v : Var} {b : Bool} (h : s.assign? v b = some t) :
    t = s.assign v b := by
  unfold assign? at h
  split at h
  · exact (Option.some.inj h).symm
  · cases h

theorem eq_record_of_record? {s t : EquationSystem} {fact : Fact} (h : s.record? fact = some t) :
    t = s.record fact := by
  cases fact with
  | value v b => exact eq_assign_of_assign? h
  | allOne m => exact eq_foldl_of_foldlM eq_assign_of_assign? h
  | equal v r =>
    simp only [record?, replace?] at h
    split at h
    · exact (Option.some.inj h).symm
    · cases h

/-- A polynomial that states a fact is neither known nor contradictory. -/
theorem not_constant_of_fact {p : Polynomial} {fact : Fact} (h : Fact.ofPolynomial? p = some fact) :
    p.isZero = false ∧ p.isOne = false := by
  constructor
  · cases hzero : p.isZero with
    | false => rfl
    | true =>
      rw [Polynomial.eq_zero_of_isZero hzero] at h
      cases h
  · cases hone : p.isOne with
    | false => rfl
    | true =>
      rw [Polynomial.eq_one_of_isOne hone] at h
      exact absurd (Fact.states_of_ofPolynomial? h) not_states_one

theorem Pass.settle_of_fact {pass : Pass} {equation : Polynomial} {fact : Fact}
    (h : Fact.ofPolynomial? (pass.system.resolve equation) = some fact) :
    pass.settle equation = { system := pass.system.record fact, progress := true } := by
  obtain ⟨hzero, hone⟩ := not_constant_of_fact h
  simp only [settle, hzero, hone, h, Bool.false_eq_true, if_false]

theorem add_of_fact {s : EquationSystem} {p : Polynomial} {fact : Fact}
    (h : Fact.ofPolynomial? ((s.reserve p).resolve p) = some fact) :
    s.add p = (true, ((s.reserve p).record fact).propagate) := by
  obtain ⟨hzero, hone⟩ := not_constant_of_fact h
  simp only [add, hzero, hone, h, Bool.false_eq_true, if_false]

theorem learn_of_fact {s : EquationSystem} {p : Polynomial} {fact : Fact}
    (h : Fact.ofPolynomial? ((s.reserve p).resolve p) = some fact) :
    s.learn p = (true, ((s.reserve p).record fact).propagate) := by
  obtain ⟨hzero, hone⟩ := not_constant_of_fact h
  simp only [learn, hzero, hone, h, Bool.false_eq_true, if_false]

theorem Pass.eq_settle_of_settle? {pass next : Pass} {equation : Polynomial} (h : pass.settle? equation = some next) :
    next = pass.settle equation := by
  unfold settle? at h
  split at h
  · next fact hfact =>
    obtain ⟨t, ht, hnext⟩ := Option.map_eq_some_iff.1 h
    rw [settle_of_fact hfact, ← hnext, eq_record_of_record? ht]
  · exact (Option.some.inj h).symm

/-- A guarded pass that succeeds is the plain one: the guards only decide whether there is a result. -/
theorem eq_pass_of_pass? {s : EquationSystem} {next : Pass} (h : s.pass? = some next) : next = s.pass :=
  eq_foldl_of_foldlM Pass.eq_settle_of_settle? h

/-- Puts the facts into the equations until a pass records no new one, with the guards of every pass. It ends for the
same reason as the plain propagation. -/
def propagate? (s : EquationSystem) : Option EquationSystem :=
  match hpass : s.pass? with
  | none => none
  | some next =>
    if hprogress : next.progress = true then
      have : next.system.equations.length < s.equations.length := by
        rw [eq_pass_of_pass? hpass] at hprogress ⊢
        exact length_equations_pass hprogress
      propagate? next.system
    else some next.system
termination_by s.equations.length

/-- Adds the equation `p = 0`, with guards. -/
def add? (s : EquationSystem) (p : Polynomial) : Option (Bool × EquationSystem) :=
  match Fact.ofPolynomial? ((s.reserve p).resolve p) with
  | some fact => (((s.reserve p).record? fact).bind propagate?).map (true, ·)
  | none => some (s.add p)

/-- Takes over a derived equation `p = 0`, with guards. -/
def learn? (s : EquationSystem) (p : Polynomial) : Option (Bool × EquationSystem) :=
  match Fact.ofPolynomial? ((s.reserve p).resolve p) with
  | some fact => (((s.reserve p).record? fact).bind propagate?).map (true, ·)
  | none => some (s.learn p)

section Success

variable {s : EquationSystem}

theorem assign?_of_free {v : Var} (h : s.Free v) (b : Bool) : s.assign? v b = some (s.assign v b) := if_pos h

/-- Giving one of several free variables a value leaves the others free, so that the guards hold between the variables
of one monomial as well. -/
theorem foldlM_assign?_of_free (hs : s.FactsValid) {vs : List Var} (hnodup : vs.Nodup) (hfree : ∀ v ∈ vs, s.Free v) :
    vs.foldlM (fun s v => s.assign? v true) s = some (vs.foldl (fun s v => s.assign v true) s) := by
  induction vs generalizing s with
  | nil => rfl
  | cons v vs ih =>
    obtain ⟨hv, hnodup⟩ := List.nodup_cons.1 hnodup
    obtain ⟨hfirst, hrest⟩ := List.forall_mem_cons.1 hfree
    rw [List.foldlM_cons, assign?_of_free hfirst true, List.foldl_cons]
    apply ih (hs.assign hfirst true) hnodup
    intro u hu
    exact free_assign.2 ⟨hrest u hu, fun heq => hv (heq ▸ hu)⟩

/-- The guards of a fact about free variables hold, whether it gives values or replaces a variable. This is where the
invariant of the facts is needed. -/
theorem record?_of_about (hs : s.FactsValid) {fact : Fact} (hfact : fact.About s.Free) :
    s.record? fact = some (s.record fact) := by
  cases fact with
  | value v b => exact assign?_of_free hfact b
  | allOne m => exact foldlM_assign?_of_free hs m.vars.nodup_toList hfact
  | equal v r => exact if_pos (Nat.ne_of_gt hfact.2.2)

theorem record?_of_ofPolynomial? (hs : s.FactsValid) {p : Polynomial} {fact : Fact}
    (h : Fact.ofPolynomial? (s.resolve p) = some fact) : s.record? fact = some (s.record fact) :=
  record?_of_about hs (about_free_of_states hs (Fact.states_of_ofPolynomial? h))

theorem Pass.settle?_eq_some {pass : Pass} (hs : pass.system.FactsValid) (equation : Polynomial) :
    pass.settle? equation = some (pass.settle equation) := by
  unfold settle?
  split
  · next fact hfact => rw [record?_of_ofPolynomial? hs hfact, settle_of_fact hfact, Option.map_some]
  · rfl

theorem Pass.foldlM_settle?_eq_some (equations : List Polynomial) {start : Pass} (hs : start.system.FactsValid) :
    equations.foldlM Pass.settle? start = some (equations.foldl Pass.settle start) := by
  induction equations generalizing start with
  | nil => rfl
  | cons equation equations ih =>
    rw [List.foldlM_cons, settle?_eq_some hs, List.foldl_cons]
    exact ih (absorbs_settle hs equation).valid

theorem pass?_eq_some (hs : s.FactsValid) : s.pass? = some s.pass :=
  Pass.foldlM_settle?_eq_some s.equations ⟨hs.value_none, hs.root_lt, hs.root_free⟩

theorem propagate?_eq_some (hs : s.FactsValid) : s.propagate? = some s.propagate := by
  induction s using propagate.induct with
  | case1 s hprogress _ ih =>
    rw [propagate_of_progress hprogress, ← ih (absorbs_pass hs).valid, propagate?]
    split
    · next hpass =>
      rw [pass?_eq_some hs] at hpass
      cases hpass
    · next next hpass =>
      obtain rfl := eq_pass_of_pass? hpass
      rw [dif_pos hprogress]
  | case2 s hprogress =>
    rw [propagate_of_not_progress hprogress, propagate?]
    split
    · next hpass =>
      rw [pass?_eq_some hs] at hpass
      cases hpass
    · next next hpass =>
      obtain rfl := eq_pass_of_pass? hpass
      rw [dif_neg hprogress]

/-- The guards hold of a fact stated by a resolved polynomial, and during the propagation that follows: every equation
is resolved before a fact is read off it. -/
theorem record?_bind_propagate? (hs : s.FactsValid) {p : Polynomial} {fact : Fact}
    (h : Fact.ofPolynomial? (s.resolve p) = some fact) :
    (s.record? fact).bind propagate? = some (s.record fact).propagate := by
  have hrecord := absorbs_record hs (Fact.states_of_ofPolynomial? h)
  rw [record?_of_ofPolynomial? hs h, Option.bind_some, propagate?_eq_some hrecord.valid]

/-- Adding to a valid system passes every guard, so that the guarded operation gives what the plain one gives. -/
theorem add?_eq_some (hs : s.Valid) (p : Polynomial) : s.add? p = some (s.add p) := by
  unfold add?
  split
  · next fact hfact => rw [record?_bind_propagate? (hs.reserve p).facts hfact, add_of_fact hfact, Option.map_some]
  · rfl

/-- Learning in a valid system passes every guard, whether the polynomial is taken over or dropped. -/
theorem learn?_eq_some (hs : s.Valid) (p : Polynomial) : s.learn? p = some (s.learn p) := by
  unfold learn?
  split
  · next fact hfact => rw [record?_bind_propagate? (hs.reserve p).facts hfact, learn_of_fact hfact, Option.map_some]
  · rfl

end Success

end BoolPoly.EquationSystem
