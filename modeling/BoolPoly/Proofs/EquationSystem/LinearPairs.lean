import BoolPoly.Proofs.EquationSystem.Rebuilding
import BoolPoly.Proofs.EquationSystem.Retention
import BoolPoly.Proofs.Simplify.Completeness
import Mathlib.Data.Set.Image

namespace BoolPoly

namespace Polynomial

theorem degree_le_of_mem_terms {p : Polynomial} {m : Monomial} (hm : m ∈ p.terms) : m.degree ≤ p.degree := by
  have hlist : m ∈ p.monomialList := (List.mem_filter.1 hm).1
  unfold degree
  generalize p.monomialList = ms at hlist
  induction ms with
  | nil => cases hlist
  | cons n ms ih =>
    rcases List.mem_cons.1 hlist with rfl | hlist
    · exact Nat.le_max_left _ _
    · exact (ih hlist).trans (Nat.le_max_right _ _)

/-- Whether the polynomial is a constant and the sum of at most `n` variables, which may coincide. It is its values
that count, so that no normal form of sums is needed. -/
def SumOf (n : Nat) (p : Polynomial) : Prop :=
  ∃ (vs : List Var) (c : Bool), vs.length ≤ n ∧ ∀ a, p.eval a = (parity (vs.map a) ^^ c)

theorem SumOf.mono {m n : Nat} {p : Polynomial} (h : p.SumOf m) (hmn : m ≤ n) : p.SumOf n := by
  obtain ⟨vs, c, hlength, heval⟩ := h
  exact ⟨vs, c, hlength.trans hmn, heval⟩

/-- A polynomial without a product of variables is the sum of its variables and its constant. -/
theorem sumOf_of_degree_le_one {p : Polynomial} (hdegree : p.degree ≤ 1) : p.SumOf p.vars.size := by
  have hlinear : ∀ m ∈ p.terms, ∃ v, Monomial.ofVar v = m := fun m hm =>
    exists_eq_ofVar_of_mem_terms hm ((degree_le_of_mem_terms hm).trans hdegree)
  obtain ⟨vs, hvs⟩ : p.terms ∈ Set.range (List.map Monomial.ofVar) := by
    rw [Set.range_list_map]
    exact hlinear
  have hnodup : vs.Nodup := .of_map Monomial.ofVar (hvs ▸ p.nodup_monomialList.filter _)
  have hsub : ∀ v ∈ vs, v ∈ p.vars := fun v hv =>
    mem_vars_of_mem_terms (hvs ▸ List.mem_map_of_mem hv) (Monomial.mem_vars_ofVar.2 rfl)
  refine ⟨vs, p.constantTerm, (List.subperm_of_subset hnodup hsub).length_le, fun a => ?_⟩
  rw [eval_eq_terms, ← hvs, List.map_map, Bool.xor_comm]
  congr 3
  funext v
  exact Monomial.eval_ofVar a v

/-- The sum of at most two variables and a constant is a constant or states a fact. So an equation of this kind is
known, a contradiction or a fact, and is never stored. -/
theorem SumOf.constant_or_states {p : Polynomial} (h : p.SumOf 2) :
    p = .zero ∨ p = .one ∨ ∃ fact : Fact, fact.States p := by
  obtain ⟨vs, c, hlength, heval⟩ := h
  have hconstant : ∀ {c}, (∀ a, p.eval a = c) → p = .zero ∨ p = .one ∨ ∃ fact : Fact, fact.States p := by
    intro c hc
    have hp : p = .constant c := eq_of_eval_eq fun a => (hc a).trans (eval_constant a c).symm
    cases c with
    | false => exact .inl hp
    | true => exact .inr (.inl hp)
  match vs, hlength with
  | [], _ => exact hconstant (c := c) fun a => by rw [heval, List.map_nil, parity_nil, Bool.false_xor]
  | [v], _ =>
    have hp : p = .ofVar v + .constant c := eq_of_eval_eq fun a => by
      rw [heval, eval_add, eval_ofVar, eval_constant, List.map_cons, List.map_nil, parity_cons, parity_nil,
        Bool.xor_false]
    exact .inr (.inr ⟨_, hp ▸ Fact.states_value v c⟩)
  | [u, v], _ =>
    by_cases huv : u = v
    · refine hconstant (c := c) fun a => ?_
      rw [heval, huv, List.map_cons, List.map_cons, List.map_nil, parity_cons, parity_cons, parity_nil,
        Bool.xor_false, Bool.xor_self, Bool.false_xor]
    · have hp : p = .ofVar u + .ofVar v + .constant c := eq_of_eval_eq fun a => by
        rw [heval, eval_add, eval_add, eval_ofVar, eval_ofVar, eval_constant, List.map_cons, List.map_cons,
          List.map_nil, parity_cons, parity_cons, parity_nil, Bool.xor_false]
      obtain ⟨fact, hfact⟩ := Fact.exists_states_equal huv c
      exact .inr (.inr ⟨fact, hp ▸ hfact⟩)

end Polynomial

namespace EquationSystem

variable {s : EquationSystem} {p : Polynomial}

/-- Every variable follows the facts by another variable, by a constant or by itself, so that one variable is put in
the place of one. -/
theorem exists_follow_eq_parity (s : EquationSystem) (v : Var) :
    ∃ (vs : List Var) (c : Bool), vs.length ≤ 1 ∧ ∀ a, s.follow a v = (parity (vs.map a) ^^ c) := by
  unfold follow
  cases s.value? v with
  | some b => exact ⟨[], b, by simp, fun a => by simp⟩
  | none =>
    cases s.replacement? v with
    | some r => exact ⟨[r.root], r.inverted, by simp, fun a => by simp⟩
    | none => exact ⟨[v], false, by simp, fun a => by simp⟩

theorem exists_parity_follow_eq (s : EquationSystem) (vs : List Var) :
    ∃ (ws : List Var) (d : Bool), ws.length ≤ vs.length ∧
      ∀ a, parity (vs.map (s.follow a)) = (parity (ws.map a) ^^ d) := by
  induction vs with
  | nil => exact ⟨[], false, Nat.le_refl 0, fun a => rfl⟩
  | cons v vs ih =>
    obtain ⟨ws, d, hws, ih⟩ := ih
    obtain ⟨us, b, hus, hv⟩ := s.exists_follow_eq_parity v
    refine ⟨us ++ ws, b ^^ d, ?_, fun a => ?_⟩
    · rw [List.length_append, List.length_cons]
      omega
    · rw [List.map_cons, parity_cons, hv, ih, List.map_append, parity_append]
      simp only [Bool.xor_assoc, Bool.xor_left_comm]

/-- Putting facts into a sum of variables leaves a sum of no more variables. With at most two variables it is again an
equation of the same kind. -/
theorem sumOf_resolve (hs : s.FactsValid) {n : Nat} (hp : p.SumOf n) : (s.resolve p).SumOf n := by
  obtain ⟨vs, c, hlength, heval⟩ := hp
  obtain ⟨ws, d, hws, hparity⟩ := s.exists_parity_follow_eq vs
  refine ⟨ws, d ^^ c, hws.trans hlength, fun a => ?_⟩
  rw [eval_resolve_eq_follow hs, heval, hparity, Bool.xor_assoc]

/-- Taking in the sum of at most two variables stores no equation, unless it is a contradiction. -/
theorem Intake.equations_eq_nil {r : Bool × EquationSystem} (h : s.Intake p r) (hs : s.Valid) (hp : p.SumOf 2)
    (hnil : s.equations = []) (hconsistent : r.2.consistent = true) : r.2.equations = [] := by
  cases h with
  | known _ => exact hnil
  | refuted _ => cases hconsistent
  | @recorded fact _ =>
    have hequations : (s.record fact).equations = [] := (equations_record s fact).trans hnil
    change (s.record fact).propagate.equations = []
    rw [propagate_of_settled (settled_of_nil hequations) (hs.flagged.record fact), hequations]
  | repeated _ => exact hnil
  | kept hzero hone hfact _ =>
    obtain hzero' | hone' | ⟨fact, hstates⟩ := (sumOf_resolve hs.facts hp).constant_or_states
    · exact absurd hzero' hzero
    · exact absurd hone' hone
    · exact absurd hfact hstates.recognised

/-- A consistent system of sums of at most two variables stores no equation: each of them was known or recorded as a
fact when it came in, and recording it left nothing to propagate. -/
theorem equations_ofPolynomials_eq_nil {ps : List Polynomial} (hps : ∀ p ∈ ps, p.SumOf 2)
    (hconsistent : (ofPolynomials ps).consistent = true) : (ofPolynomials ps).equations = [] := by
  let P : EquationSystem → Prop := fun t => t.Valid ∧ (t.consistent = true → t.equations = [])
  have hstep : ∀ t, P t → ∀ p ∈ ps, P (t.add p).2 := by
    rintro t ⟨ht, hnil⟩ p hp
    refine ⟨ht.add p, fun hconsistent => ?_⟩
    have hbefore : t.consistent = true := by
      by_contra hfalse
      have hafter := (remembers_add ht p).1.consistent_eq_false ht (ht.add p) (Bool.eq_false_iff.2 hfalse)
      rw [hafter] at hconsistent
      cases hconsistent
    exact (intake_add t p).equations_eq_nil (ht.reserve p) (hps p hp) (hnil hbefore) hconsistent
  have hrun : P (ofPolynomials ps) := List.foldlRecOn ps _ ⟨valid_empty, fun _ => rfl⟩ hstep
  exact hrun.2 hconsistent

/-- Without equations the facts alone have the solutions, and the facts can be read off these. -/
theorem solves_iff_obeys (hnil : s.equations = []) {a : Var → Bool} : Solves a s ↔ Obeys a s := by
  rw [solves_iff, hnil]
  exact and_iff_right (List.forall_mem_nil _)

/-- What a variable follows is not greater than the variable, because replacements lead to smaller ones. So changing a
greater variable does not change it. -/
theorem follow_update_of_lt (hs : s.FactsValid) {u v : Var} (huv : u < v) (a : Var → Bool) (b : Bool) :
    s.follow (Function.update a v b) u = s.follow a u := by
  unfold follow
  split
  · rfl
  · split
    · next r hr => rw [Function.update_of_ne (Nat.ne_of_lt ((hs.root_lt hr).trans huv))]
    · rw [Function.update_of_ne (Nat.ne_of_lt huv)]

/-- Facts leave nothing else to be said about variables and pairs of variables: a free variable can be given any
value, and the smaller variables do not follow it. -/
theorem saturated_of_equations_nil (hs : s.FactsValid) (hnil : s.equations = []) : s.Saturated := by
  have hsolves : ∀ a, Solves (s.follow a) s := fun a => (solves_iff_obeys hnil).2 (obeys_follow hs a)
  constructor
  · intro v b hv hforced
    have hvalue := hforced _ (hsolves fun _ => !b)
    rw [follow_of_free hv] at hvalue
    exact absurd hvalue (by simp)
  · intro v u c hv huv hlinked
    let a : Var → Bool := fun _ => false
    have hfalse := hlinked _ (hsolves a)
    have htrue := hlinked _ (hsolves (Function.update a v true))
    rw [follow_update_of_lt hs huv, ← hfalse, follow_of_free hv, follow_of_free hv, Function.update_self] at htrue
    cases htrue

/-- A system of sums of at most two variables is found contradictory just if they have no common zero. -/
theorem consistent_ofPolynomials_iff {ps : List Polynomial} (hps : ∀ p ∈ ps, p.SumOf 2) :
    (ofPolynomials ps).consistent = true ↔ ∃ a, ∀ p ∈ ps, p.eval a = false := by
  have hvalid := valid_ofPolynomials ps
  constructor
  · intro hconsistent
    have hnil := equations_ofPolynomials_eq_nil hps hconsistent
    have hobeys := obeys_follow hvalid.facts fun _ => false
    exact ⟨_, solves_ofPolynomials.1 ((solves_iff_obeys hnil).2 hobeys)⟩
  · rintro ⟨a, ha⟩
    exact (solves_ofPolynomials.2 ha).consistent hvalid

/-- The facts of such a system are those that the common zeros share. They are determined by the equations together,
whatever the order of these was. -/
theorem canonical_ofPolynomials {ps : List Polynomial} (hps : ∀ p ∈ ps, p.SumOf 2)
    (hsat : ∃ a, ∀ p ∈ ps, p.eval a = false) : (ofPolynomials ps).equations = [] ∧
    Canonical (fun a => ∀ p ∈ ps, p.eval a = false) (ofPolynomials ps) := by
  have hnil := equations_ofPolynomials_eq_nil hps ((consistent_ofPolynomials_iff hps).2 hsat)
  have hfacts := (valid_ofPolynomials ps).facts
  have hsolutions : (Solves · (ofPolynomials ps)) = fun a => ∀ p ∈ ps, p.eval a = false :=
    funext fun a => propext solves_ofPolynomials
  refine ⟨hnil, ?_⟩
  rw [← hsolutions]
  refine (saturated_of_equations_nil hfacts hnil).canonical hfacts ?_
  obtain ⟨a, ha⟩ := hsat
  exact ⟨a, solves_ofPolynomials.2 ha⟩

/-- Linear equations over at most two variables each are decided by adding them. The system is consistent just if they
have a common zero. It stores no equation then, its values are those that all common zeros share, and every other
variable that is linked to smaller ones is replaced by the least of these. So the facts do not depend on the order of
the equations. -/
theorem linear_pairs_canonical {ps : List Polynomial} (hps : ∀ p ∈ ps, p.degree ≤ 1 ∧ p.vars.size ≤ 2) :
    ((ofPolynomials ps).consistent = true ↔ ∃ a, ∀ p ∈ ps, p.eval a = false) ∧
    ((∃ a, ∀ p ∈ ps, p.eval a = false) →
      (ofPolynomials ps).equations = [] ∧ Canonical (fun a => ∀ p ∈ ps, p.eval a = false) (ofPolynomials ps) ∧
      ∀ qs : List Polynomial, qs.Perm ps → (ofPolynomials qs).values = (ofPolynomials ps).values ∧
        (ofPolynomials qs).replacements = (ofPolynomials ps).replacements) := by
  have hsums : ∀ p ∈ ps, p.SumOf 2 := by
    intro p hp
    obtain ⟨hdegree, hsize⟩ := hps p hp
    exact (Polynomial.sumOf_of_degree_le_one hdegree).mono hsize
  refine ⟨consistent_ofPolynomials_iff hsums, fun hsat => ?_⟩
  obtain ⟨hnil, hcanonical⟩ := canonical_ofPolynomials hsums hsat
  refine ⟨hnil, hcanonical, fun qs hperm => ?_⟩
  -- the common zeros are the same in every order
  have hzeros : (fun a => ∀ p ∈ qs, p.eval a = false) = fun a => ∀ p ∈ ps, p.eval a = false :=
    funext fun a => propext (forall_congr' fun p => imp_congr_left hperm.mem_iff)
  have hsums' : ∀ q ∈ qs, q.SumOf 2 := fun q hq => hsums q (hperm.mem_iff.1 hq)
  have hsat' : ∃ a, ∀ q ∈ qs, q.eval a = false := by
    obtain ⟨a, ha⟩ := hsat
    exact ⟨a, fun q hq => ha q (hperm.mem_iff.1 hq)⟩
  obtain ⟨-, hcanonical'⟩ := canonical_ofPolynomials hsums' hsat'
  rw [hzeros] at hcanonical'
  exact hcanonical'.facts_eq hcanonical

/-- A chain of links beside a value that another link passes on, and a cycle with an odd number of negations, which
has no common zero. -/
theorem linear_pairs_canonical_chain :
    let ps : List Polynomial := [.sum [.ofVar 2, .ofVar 3, .one], .sum [.ofVar 1, .ofVar 2], .sum [.ofVar 0, .ofVar 4],
      .sum [.ofVar 0, .one]]
    let qs : List Polynomial := [.sum [.ofVar 0, .ofVar 1], .sum [.ofVar 1, .ofVar 2], .sum [.ofVar 0, .ofVar 2, .one]]
    (ofPolynomials ps).consistent = true ∧ (ofPolynomials ps).equations = [] ∧
    (ofPolynomials ps).value? 4 = some true ∧ (ofPolynomials ps).replacement? 3 = some ⟨1, true⟩ ∧
    (ofPolynomials ps.reverse).replacements = (ofPolynomials ps).replacements ∧
    (ofPolynomials qs).consistent = false := by
  intro ps qs
  have hps : ∀ p ∈ ps, p.degree ≤ 1 ∧ p.vars.size ≤ 2 := by decide
  have hqs : ∀ q ∈ qs, q.degree ≤ 1 ∧ q.vars.size ≤ 2 := by decide
  obtain ⟨hconsistent, hsat⟩ := linear_pairs_canonical hps
  obtain ⟨hconsistent', -⟩ := linear_pairs_canonical hqs
  have hzero : ∀ b, ∀ p ∈ ps, p.eval (fun v => v == 0 || v == 4 || (b ^^ v == 3)) = false := by
    intro b
    cases b <;> decide
  have hzeros : ∀ a, (∀ p ∈ ps, p.eval a = false) → a 4 = true ∧ a 3 = (a 1 ^^ true) := by
    intro a ha
    simp only [ps, List.forall_mem_cons, Polynomial.eval_sum, List.map_cons, List.map_nil, Monomial.eval_ofVar,
      Monomial.eval_one, parity_cons, parity_nil, Bool.xor_false] at ha
    obtain ⟨h23, h12, h04, h0, -⟩ := ha
    revert h23 h12 h04 h0
    cases a 0 <;> cases a 1 <;> cases a 2 <;> cases a 3 <;> cases a 4 <;> decide
  obtain ⟨hnil, hcanonical, hperm⟩ := hsat ⟨_, hzero false⟩
  refine ⟨hconsistent.2 ⟨_, hzero false⟩, hnil, ?_, ?_, (hperm _ ps.reverse_perm).2, ?_⟩
  · exact (hcanonical.value?_iff 4 true).2 fun a ha => (hzeros a ha).1
  · refine (hcanonical.replacement?_iff 3 ⟨1, true⟩).2 ⟨fun b hforced => ?_, by decide, fun a ha => (hzeros a ha).2, ?_⟩
    · exact absurd ((hforced _ (hzero true)).trans (hforced _ (hzero false)).symm) (by decide)
    · intro u c hlinked
      by_contra hlt
      obtain rfl : u = 0 := Nat.lt_one_iff.1 (Nat.not_le.1 hlt)
      exact absurd ((hlinked _ (hzero true)).trans (hlinked _ (hzero false)).symm) (by decide)
  · rw [Bool.eq_false_iff, ne_eq, hconsistent']
    rintro ⟨a, ha⟩
    simp only [qs, List.forall_mem_cons, Polynomial.eval_sum, List.map_cons, List.map_nil, Monomial.eval_ofVar,
      Monomial.eval_one, parity_cons, parity_nil, Bool.xor_false] at ha
    obtain ⟨h01, h12, h02, -⟩ := ha
    revert h01 h12 h02
    cases a 0 <;> cases a 1 <;> cases a 2 <;> decide

end EquationSystem

end BoolPoly
