import BoolPoly.Proofs.EquationSystem.Completion
import BoolPoly.Proofs.EquationSystem.Guarded
import Mathlib.Data.List.Basic

open Std

namespace BoolPoly

namespace Polynomial

theorem mem_constant {b : Bool} {m : Monomial} : m ∈ (constant b).monomials ↔ b = true ∧ m = .one := by
  cases b with
  | false => exact iff_of_false (OrderedSet.not_mem_empty m) (by simp)
  | true => exact OrderedSet.mem_singleton.trans (by simp)

theorem mem_ofMonomial {m n : Monomial} : n ∈ (ofMonomial m).monomials ↔ n = m := OrderedSet.mem_singleton

theorem mem_terms {p : Polynomial} {m : Monomial} : m ∈ p.terms ↔ m ∈ p.monomials ∧ m ≠ .one := by
  simp [terms, mem_monomialList, ← Monomial.isOne_iff]

theorem terms_perm {p : Polynomial} {ms : List Monomial} (hnodup : ms.Nodup) (h : ∀ m, m ∈ p.terms ↔ m ∈ ms) :
    p.terms.Perm ms :=
  (List.perm_ext_iff_of_nodup (p.nodup_monomialList.filter _) hnodup).2 h

theorem ofVar_ne_one (v : Var) : Monomial.ofVar v ≠ .one := by
  intro h
  have hmem : v ∈ Monomial.one.vars := h ▸ Monomial.mem_vars_ofVar.2 rfl
  exact OrderedSet.not_mem_empty v hmem

theorem ofVar_injective {u v : Var} (h : Monomial.ofVar u = .ofVar v) : u = v := by
  have hmem : u ∈ (Monomial.ofVar v).vars := h ▸ Monomial.mem_vars_ofVar.2 rfl
  exact Monomial.mem_vars_ofVar.1 hmem

theorem terms_ofMonomial_add_constant {m : Monomial} (hm : m ≠ .one) (b : Bool) :
    (ofMonomial m + constant b).terms = [m] := by
  rw [← List.perm_singleton]
  apply terms_perm (List.pairwise_singleton _ m)
  intro n
  rw [mem_terms, mem_add, mem_ofMonomial, mem_constant, List.mem_singleton]
  constructor
  · intro hmem
    obtain ⟨hn, hone⟩ := hmem
    simpa [hone] using hn
  · intro hn
    subst hn
    simp [hm]

theorem constantTerm_ofMonomial_add_constant {m : Monomial} (hm : m ≠ .one) (b : Bool) :
    (ofMonomial m + constant b).constantTerm = b := by
  unfold constantTerm
  rw [Bool.eq_iff_iff, decide_eq_true_iff, mem_add, mem_ofMonomial, mem_constant]
  simp [hm.symm]

theorem terms_ofVar_add_ofVar {u v : Var} (huv : u ≠ v) (b : Bool) :
    (ofVar u + ofVar v + constant b).terms.Perm [.ofVar u, .ofVar v] := by
  have hne : Monomial.ofVar u ≠ .ofVar v := fun h => huv (ofVar_injective h)
  apply terms_perm (by simp [hne])
  intro n
  unfold ofVar
  rw [mem_terms, mem_add, mem_add, mem_ofMonomial, mem_ofMonomial, mem_constant, List.mem_cons, List.mem_singleton]
  have hu := ofVar_ne_one u
  have hv := ofVar_ne_one v
  grind

end Polynomial

namespace Fact

/-- Every polynomial that states a fact is recognised, whatever its monomials and their order. So a polynomial in
which no fact was recognised has none of the three shapes. -/
theorem States.recognised {p : Polynomial} {fact : Fact} (h : States p fact) : ofPolynomial? p ≠ none := by
  have hvar : ∀ v, (Monomial.ofVar v).varList = [v] := fun _ => rfl
  unfold ofPolynomial?
  cases h with
  | value hterms => simp [hterms, hvar]
  | allOne hterms hone =>
    simp only [hterms, hone, if_true]
    split <;> simp
  | equal hterms => simp [hterms, hvar]

theorem states_value (v : Var) (b : Bool) : States (.ofVar v + .constant b) (.value v b) := by
  have hone := Polynomial.ofVar_ne_one v
  have h := States.value (Polynomial.terms_ofMonomial_add_constant hone b)
  rwa [Polynomial.constantTerm_ofMonomial_add_constant hone] at h

theorem states_allOne {m : Monomial} (hm : m ≠ .one) : States (.ofMonomial m + .one) (.allOne m) :=
  .allOne (Polynomial.terms_ofMonomial_add_constant hm true) (Polynomial.constantTerm_ofMonomial_add_constant hm true)

theorem exists_states_equal {u v : Var} (huv : u ≠ v) (b : Bool) :
    ∃ fact, States (.ofVar u + .ofVar v + .constant b) fact := by
  have hperm := Polynomial.terms_ofVar_add_ofVar huv b
  obtain ⟨m, n, hterms⟩ := List.length_eq_two.1 hperm.length_eq
  have hlinear : ∀ k ∈ [m, n], ∃ x, k = .ofVar x := by
    intro k hk
    have hmem := hperm.mem_iff.1 (hterms ▸ hk)
    rw [List.mem_cons, List.mem_singleton] at hmem
    exact hmem.elim (fun hk => ⟨u, hk⟩) fun hk => ⟨v, hk⟩
  obtain ⟨⟨x, rfl⟩, hlast⟩ := List.forall_mem_cons.1 hlinear
  obtain ⟨y, rfl⟩ := hlast n (List.mem_singleton_self n)
  exact ⟨_, .equal hterms⟩

end Fact

namespace EquationSystem

/-- The normal form of a system, in terms of what can be looked up in it: equations, values, replacements and the
flag. Nothing in it refers to the way in which the system was built. -/
structure Normal (s : EquationSystem) : Prop where
  value_or_replacement : ∀ v, s.value? v = none ∨ s.replacement? v = none
  root_lt : ∀ v r, s.replacement? v = some r → r.root < v
  root_free : ∀ v r, s.replacement? v = some r → s.value? r.root = none ∧ s.replacement? r.root = none
  equation_lt : ∀ p ∈ s.equations, ∀ v ∈ p.vars, v < s.numVars
  value_lt : ∀ v b, s.value? v = some b → v < s.numVars
  replacement_lt : ∀ v r, s.replacement? v = some r → v < s.numVars ∧ r.root < s.numVars
  equation_ne_zero : ∀ p ∈ s.equations, p ≠ .zero
  equation_free : ∀ p ∈ s.equations, ∀ v ∈ p.vars, s.value? v = none ∧ s.replacement? v = none
  no_value : ∀ p ∈ s.equations, ∀ v b, p ≠ .ofVar v + .constant b
  no_product : ∀ p ∈ s.equations, ∀ m, p ≠ .ofMonomial m + .one
  no_equality : ∀ p ∈ s.equations, ∀ u v b, u ≠ v → p ≠ .ofVar u + .ofVar v + .constant b
  equations_nodup : s.equations.Nodup
  one_mem_iff : .one ∈ s.equations ↔ s.consistent = false

variable {s : EquationSystem}

theorem Settled.not_states (hs : s.Settled) {p : Polynomial} (hp : p ∈ s.equations) (fact : Fact) : ¬fact.States p :=
  fun h => h.recognised (hs.no_fact hp)

theorem Valid.normal (hs : s.Valid) : s.Normal where
  value_or_replacement v := by
    cases hr : s.replacement? v with
    | none => exact .inr rfl
    | some r => exact .inl (hs.facts.value_none hr)
  root_lt _ _ hr := hs.facts.root_lt hr
  root_free _ _ hr := hs.facts.root_free hr
  equation_lt _ hp := hs.bounded.equation hp
  value_lt _ _ hv := lt_of_value? hs.bounded hv
  replacement_lt _ _ hr :=
    have hlt := lt_of_replacement? hs.bounded hr
    ⟨hlt, Nat.lt_trans (hs.facts.root_lt hr) hlt⟩
  equation_ne_zero _ hp := hs.settled.ne_zero hp
  equation_free _ hp := hs.settled.free hp
  no_value p hp v b := by
    intro heq
    exact hs.settled.not_states hp _ (heq ▸ Fact.states_value v b)
  no_product p hp m := by
    intro heq
    by_cases hm : m = .one
    · subst hm
      exact hs.settled.ne_zero hp (heq.trans (by decide))
    · exact hs.settled.not_states hp _ (heq ▸ Fact.states_allOne hm)
  no_equality p hp u v b huv := by
    intro heq
    obtain ⟨fact, hfact⟩ := Fact.exists_states_equal huv b
    exact hs.settled.not_states hp fact (heq ▸ hfact)
  equations_nodup := hs.settled.nodup
  one_mem_iff := hs.flagged.symm

/-- Whatever was added and learnt, the system is in normal form, and adding or learning one more polynomial records
facts only where the guards hold. -/
theorem Reachable.normal_and_guarded (hs : s.Reachable) :
    s.Normal ∧ ∀ p, s.add? p = some (s.add p) ∧ s.learn? p = some (s.learn p) :=
  ⟨hs.valid.normal, fun p => ⟨add?_eq_some hs.valid p, learn?_eq_some hs.valid p⟩⟩

/-- Replacements that are led on to another root, beside an equation and a learnt polynomial that contradicts them. -/
theorem Reachable.normal_and_guarded_contradicted :
    let s := ((ofPolynomials [.sum [.ofVar 2, .ofVar 3], .sum [.ofVar 1, .ofVar 2, .one],
      .sum [.ofVars [0, 3], .ofVar 4, .one]]).learn (.sum [.ofVar 1, .ofVar 3])).2
    s.Reachable ∧ s.Normal ∧ ∀ p, s.add? p = some (s.add p) ∧ s.learn? p = some (s.learn p) := by
  intro s
  have hs : s.Reachable := (reachable_ofPolynomials (by decide)).learn (by decide)
  exact ⟨hs, hs.normal_and_guarded⟩

end EquationSystem

end BoolPoly
