import BoolPoly.Proofs.Encoding.Exactness
import BoolPoly.Proofs.EquationSystem.Completion
import BoolPoly.Proofs.Solver.Contract
import BoolPoly.Simplify

open Std

namespace BoolPoly

namespace Encoding

variable {e : Encoding} {ps : List Polynomial}

theorem Faithful.lt_of_monomialOf? (h : e.Faithful ps) {v : Var} {m : Monomial} (hm : e.monomialOf? v = some m) :
    ∀ x ∈ m.vars, x < e.numSystemVars := by
  rcases monomialOf?_cases hm with ⟨hlt, rfl⟩ | ⟨i, rfl, hi⟩
  · intro x hx
    rwa [Monomial.mem_vars_ofVar.1 hx]
  · exact h.product_lt (List.mem_of_getElem? hi)

theorem names_of_mapM {vs : List Var} {ms : List Monomial} (h : vs.mapM e.monomialOf? = some ms) :
    e.Names ms vs := by
  induction vs generalizing ms with
  | nil =>
    cases h
    exact .nil
  | cons v vs ih =>
    rw [List.mapM_cons, Option.bind_eq_bind, Option.bind_eq_some_iff] at h
    obtain ⟨m, hm, h⟩ := h
    obtain ⟨rest, hrest, h⟩ := Option.bind_eq_some_iff.1 h
    cases h
    exact .cons hm (ih hrest)

/-- Whether a polynomial is about the variables of the system, and zero wherever the statement `S` holds besides the
definitions. Such a polynomial may be learnt when `S` follows from the query. -/
structure Derived (e : Encoding) (S : (Var → Bool) → Prop) (p : Polynomial) : Prop where
  lt : ∀ v ∈ p.vars, v < e.numSystemVars
  zero : ∀ {a}, Cnf.holds a e.definitions = true → S a → p.eval a = false

theorem derived_unit (h : e.Faithful ps) {l : Literal} {p : Polynomial} (hp : e.unitPolynomial? l = some p) :
    e.Derived (fun a => l.holds a = true) p := by
  rw [unitPolynomial?, Option.bind_eq_bind, Option.bind_eq_some_iff] at hp
  obtain ⟨m, hm, hp⟩ := hp
  split at hp
  · cases hp
  · cases hp
    constructor
    · intro v hv
      rcases Polynomial.mem_vars_add hv with hv | hv
      · exact h.lt_of_monomialOf? hm v (Polynomial.mem_vars_ofMonomial.1 hv)
      · exact absurd hv Polynomial.not_mem_vars_constant
    · intro a ha hl
      rw [Polynomial.eval_add, Polynomial.eval_ofMonomial, Polynomial.eval_constant, ← h.eval_eq ha hm,
        Literal.holds_mk.1 hl, Bool.xor_self]

theorem derived_equivalence (h : e.Faithful ps) {pair : Literal × Literal} {p : Polynomial}
    (hp : e.equivalencePolynomial? pair = some p) : e.Derived (fun a => pair.1.holds a = pair.2.holds a) p := by
  rw [equivalencePolynomial?, Option.bind_eq_bind, Option.bind_eq_some_iff] at hp
  obtain ⟨m, hm, hp⟩ := hp
  obtain ⟨n, hn, hp⟩ := Option.bind_eq_some_iff.1 hp
  split at hp
  · cases hp
  · cases hp
    constructor
    · intro v hv
      rcases Polynomial.mem_vars_add hv with hv | hv
      · rcases Polynomial.mem_vars_add hv with hv | hv
        · exact h.lt_of_monomialOf? hm v (Polynomial.mem_vars_ofMonomial.1 hv)
        · exact h.lt_of_monomialOf? hn v (Polynomial.mem_vars_ofMonomial.1 hv)
      · exact absurd hv Polynomial.not_mem_vars_constant
    · intro a ha hpair
      rw [Polynomial.eval_add, Polynomial.eval_add, Polynomial.eval_ofMonomial, Polynomial.eval_ofMonomial,
        Polynomial.eval_constant, ← h.eval_eq ha hm, ← h.eval_eq ha hn]
      simp only [Literal.holds, Literal.satisfiedBy] at hpair
      revert hpair
      cases a pair.1.var <;> cases a pair.2.var <;> cases pair.1.positive <;> cases pair.2.positive <;> simp

theorem derived_relation (h : e.Faithful ps) {r : XorRelation} {p : Polynomial}
    (hp : e.relationPolynomial? r = some p) : e.Derived (fun a => r.Holds a) p := by
  rw [relationPolynomial?, Option.bind_eq_bind, Option.bind_eq_some_iff] at hp
  obtain ⟨ms, hms, hp⟩ := hp
  cases hp
  have hnames := names_of_mapM hms
  constructor
  · intro v hv
    rcases Polynomial.mem_vars_add hv with hv | hv
    · obtain ⟨m, hm, hv⟩ := Polynomial.mem_vars_sum hv
      obtain ⟨x, -, hx⟩ := hnames.exists_of_mem hm
      exact h.lt_of_monomialOf? hx v hv
    · exact absurd hv Polynomial.not_mem_vars_constant
  · intro a ha hr
    rw [Polynomial.eval_add, Polynomial.eval_sum, Polynomial.eval_constant, ← hnames.map_eq h ha, hr, Bool.xor_self]

/-- Whatever a stage offers is zero where the report holds: the polynomial of a unit, of an equivalence or of a linear
relation is zero where the fact holds. -/
theorem derived_of_mem_candidates (h : e.Faithful ps) {report : Report} {s : EquationSystem} {stage : Stage}
    {p : Polynomial} (hp : p ∈ e.candidates report s stage) : e.Derived (fun a => report.Holds a) p := by
  cases stage with
  | units =>
    obtain ⟨l, hl, hp⟩ := List.mem_filterMap.1 hp
    have hderived := derived_unit h hp
    exact ⟨hderived.lt, fun ha hreport => hderived.zero ha (hreport.units l hl)⟩
  | equivalences =>
    obtain ⟨pair, hpair, hp⟩ := List.mem_filterMap.1 hp
    have hderived := derived_equivalence h hp
    exact ⟨hderived.lt, fun ha hreport => hderived.zero ha (hreport.equivalences pair hpair)⟩
  | relations =>
    obtain ⟨r, hr, hp⟩ := List.mem_filterMap.1 (List.mem_filter.1 hp).1
    have hderived := derived_relation h hp
    refine ⟨hderived.lt, fun ha hreport => hderived.zero ha ?_⟩
    rcases List.mem_append.1 hr with hr | hr
    · exact hreport.relations r hr
    · exact hreport.combined r hr

end Encoding

namespace EquationSystem

variable {s : EquationSystem} {config : Config} {e : Encoding}

/-- The encoding of a valid system is about its variables, assumes its values and is faithful to its equations. -/
theorem Valid.encoded (hs : s.Valid) (he : Encoding.ofSystem s config = .ok e) : e.numSystemVars = s.numVars ∧
    e.assumptions = s.values.toList.map (fun (v, b) => ⟨v, b⟩) ∧ e.Faithful s.equations :=
  Encoding.ofSystem_spec he fun _ hp => hs.bounded.equation hp

theorem Valid.exists_encoding (hs : s.Valid) (hadmits : Encoding.Admits config s) :
    ∃ e, Encoding.ofSystem s config = .ok e :=
  (Encoding.ofSystem_isOk_iff fun _ hp => hs.bounded.equation hp).2 hadmits

theorem mem_assumptions (hs : s.Valid) (he : Encoding.ofSystem s config = .ok e) {l : Literal} :
    l ∈ (queryOf e config).assumptions ↔ s.value? l.var = some l.positive := by
  obtain ⟨-, hassumptions, -⟩ := hs.encoded he
  rw [queryOf, hassumptions, List.mem_map]
  constructor
  · rintro ⟨⟨v, b⟩, hmem, rfl⟩
    exact ExtTreeMap.mem_toList_iff_getElem?_eq_some.1 hmem
  · intro h
    exact ⟨(l.var, l.positive), ExtTreeMap.mem_toList_iff_getElem?_eq_some.2 h, rfl⟩

theorem bounded_queryOf (hs : s.Valid) (he : Encoding.ofSystem s config = .ok e) : (queryOf e config).Bounded := by
  obtain ⟨hnum, -, h⟩ := hs.encoded he
  refine ⟨h.below, fun l hl => ?_⟩
  have hlt := lt_of_value? hs.bounded ((mem_assumptions hs he).1 hl)
  rw [← hnum] at hlt
  exact hlt.trans_le e.numVars_le

/-- Whether an assignment is a solution depends on the variables of the system alone, so that partial sums and
products may be added freely. -/
theorem solves_congr (hs : s.Valid) {a b : Var → Bool} (hab : AgreeBelow s.numVars a b) :
    Solves a s ↔ Solves b s := by
  refine forall₂_congr fun p hp => ?_
  rw [Polynomial.eval_congr fun v hv => hab v (lt_of_mem_polynomials hs hp hv)]

/-- A solution of the system extends to a model of its query, although the query does not mention the replacements:
the encoding is faithful, and the solution has the known values. -/
theorem exists_model (hs : s.Valid) (he : Encoding.ofSystem s config = .ok e) {a : Var → Bool} (ha : Solves a s) :
    ∃ b, AgreeBelow s.numVars a b ∧ (queryOf e config).Holds b := by
  obtain ⟨hnum, -, h⟩ := hs.encoded he
  obtain ⟨heqs, hobeys⟩ := solves_iff.1 ha
  obtain ⟨b, hab, hb⟩ := h.determines.extend heqs
  rw [hnum] at hab
  refine ⟨b, hab, hb, fun l hl => ?_⟩
  have hvalue := (mem_assumptions hs he).1 hl
  exact Literal.holds_mk.2 ((hab l.var (lt_of_value? hs.bounded hvalue)).symm.trans (hobeys.value hvalue))

/-- Whatever a report says, the candidates are about the variables of the system: facts are read as polynomials over
the monomials that the solver's variables stand for, and others are not offered. -/
theorem lt_of_mem_candidates (hs : s.Valid) (he : Encoding.ofSystem s config = .ok e) {report : Report}
    {t : EquationSystem} {stage : Stage} {p : Polynomial} (hp : p ∈ e.candidates report t stage) :
    ∀ v ∈ p.vars, v < s.numVars := by
  obtain ⟨hnum, -, hfaithful⟩ := hs.encoded he
  exact hnum ▸ (Encoding.derived_of_mem_candidates hfaithful hp).lt

theorem Reachable.learnAll (hs : s.Reachable) {ps : List Polynomial} (hps : ∀ p ∈ ps, ∀ v ∈ p.vars, v < s.numVars) :
    (s.learnAll ps).2.Reachable ∧ (s.learnAll ps).2.numVars = s.numVars := by
  refine List.foldlRecOn ps _ (motive := fun learnt : Nat × EquationSystem =>
    learnt.2.Reachable ∧ learnt.2.numVars = s.numVars) ⟨hs, rfl⟩ fun learnt hlearnt p hp => ?_
  obtain ⟨hreachable, hnum⟩ := hlearnt
  have hlt : ∀ v ∈ p.vars, v < learnt.2.numVars := hnum.symm ▸ hps p hp
  refine ⟨hreachable.learn (hreachable.countable hlt), ?_⟩
  rw [numVars_learn hreachable.valid, reserve_of_lt hlt, hnum]

theorem Reachable.learnReport (hs : s.Reachable) (he : Encoding.ofSystem s config = .ok e) (report : Report) :
    (s.learnReport e report).2.Reachable := by
  refine (List.foldlRecOn Stage.pipeline _ (motive := fun learnt : Nat × EquationSystem =>
    learnt.2.Reachable ∧ learnt.2.numVars = s.numVars) ⟨hs, rfl⟩ fun learnt hlearnt stage _ => ?_).1
  obtain ⟨hreachable, hsame⟩ := hlearnt
  obtain ⟨hreachable', hsame'⟩ := hreachable.learnAll fun p hp => hsame.symm ▸ lt_of_mem_candidates hs.valid he hp
  exact ⟨hreachable', hsame'.trans hsame⟩

theorem Reachable.conclude (hs : s.Reachable) (he : Encoding.ofSystem s config = .ok e) (given : EquationSystem)
    (report : Report) : (s.conclude given e report).1.Reachable := by
  have hlearnt := hs.learnReport he report
  rw [EquationSystem.conclude]
  split
  · exact hs.add fun v hv => absurd hv Polynomial.not_mem_vars_constant
  · dsimp only
    split <;> exact hlearnt

/-- Simplification leads from reachable systems to reachable ones, whatever the solver says: the polynomials that it
offers for learning are about the variables of the system, so that all of them can come in. -/
theorem Reachable.simplify (hs : s.Reachable) (given : EquationSystem) (config : Config) (solver : Solver) :
    (s.simplify given config solver).system.Reachable := by
  rw [EquationSystem.simplify]
  split
  · split
    · exact hs
    · next e he =>
      dsimp only
      split
      · exact hs
      · exact hs.conclude he given _
  · exact hs

end EquationSystem

end BoolPoly
