import BoolPoly.Proofs.EquationSystem.Representation
import Mathlib.Data.List.Permutation

open Std

namespace BoolPoly

namespace Polynomial

theorem add_assoc (p q r : Polynomial) : p + q + r = p + (q + r) := by
  apply eq_of_eval_eq
  intro a
  rw [eval_add, eval_add, eval_add, eval_add, Bool.xor_assoc]

theorem constantTerm_ofVar_add_ofVar (u v : Var) (b : Bool) :
    (ofVar u + ofVar v + constant b).constantTerm = b := by
  unfold constantTerm
  rw [Bool.eq_iff_iff, decide_eq_true_iff, mem_add, mem_add, mem_constant, ofVar, ofVar, mem_ofMonomial,
    mem_ofMonomial]
  simp [(ofVar_ne_one u).symm, (ofVar_ne_one v).symm]

end Polynomial

namespace Fact

theorem ofPolynomial?_value (v : Var) (b : Bool) : ofPolynomial? (.ofVar v + .constant b) = some (.value v b) := by
  have hone := Polynomial.ofVar_ne_one v
  have hvar : (Monomial.ofVar v).varList = [v] := rfl
  unfold ofPolynomial? Polynomial.ofVar
  simp only [Polynomial.terms_ofMonomial_add_constant hone, hvar,
    Polynomial.constantTerm_ofMonomial_add_constant hone]

/-- The polynomial of a replacement states that replacement, whichever of its variables comes first. So a replacement
that was written is recognised as the fact that it was. -/
theorem ofPolynomial?_equal {v : Var} {r : Replacement} (hlt : r.root < v) :
    ofPolynomial? (.ofVar v + r.polynomial) = some (.equal v r) := by
  have hvar : ∀ x, (Monomial.ofVar x).varList = [x] := fun _ => rfl
  have hperm := Polynomial.terms_ofVar_add_ofVar (Nat.ne_of_gt hlt) r.inverted
  rw [Replacement.polynomial, ← Polynomial.add_assoc]
  unfold ofPolynomial?
  rcases List.pair_perm.1 hperm.symm with hterms | hterms
  · simp only [hterms, hvar, Polynomial.constantTerm_ofVar_add_ofVar, Nat.max_eq_left (Nat.le_of_lt hlt),
      Nat.min_eq_right (Nat.le_of_lt hlt)]
  · simp only [hterms, hvar, Polynomial.constantTerm_ofVar_add_ofVar, Nat.max_eq_right (Nat.le_of_lt hlt),
      Nat.min_eq_left (Nat.le_of_lt hlt)]

end Fact

namespace EquationSystem

/-- In a list of related entries those before an entry are related to it. It is used for the facts of a map, whose
variables are distinct. -/
theorem rel_of_pairwise {α : Type} {R : α → α → Prop} {l done todo : List α} {a : α} (h : l.Pairwise R)
    (hsplit : l = done ++ a :: todo) : ∀ b ∈ done, R b a := by
  rw [hsplit, List.pairwise_append] at h
  exact fun b hb => h.2.2 b hb a List.mem_cons_self

theorem Free.value?_ne {s : EquationSystem} {v : Var} (h : s.Free v) (b : Bool) : s.value? v ≠ some b := by
  rw [h.1]
  exact nofun

theorem Free.replacement?_ne {s : EquationSystem} {v : Var} (h : s.Free v) (r : Replacement) :
    s.replacement? v ≠ some r := by
  rw [h.2]
  exact nofun

section Settled

variable {s : EquationSystem}

/-- In a system with nothing left to be done an equation is kept as it is: it is resolved already, states no fact, and
is not among those kept so far. -/
theorem settle_of_settled (hs : s.Settled) (hflag : s.Flagged) {kept : List Polynomial} {p : Polynomial}
    (hp : p ∈ s.equations) (hnew : p ∉ kept) :
    Pass.settle ⟨{ s with equations := kept }, false⟩ p = ⟨{ s with equations := kept ++ [p] }, false⟩ := by
  have hresolve : { s with equations := kept }.resolve p = p := resolve_of_free (hs.free hp)
  have hzero : p.isZero = false := Bool.eq_false_iff.2 fun h => hs.ne_zero hp (Polynomial.eq_zero_of_isZero h)
  simp only [Pass.settle, hresolve, hzero, Bool.false_eq_true, if_false, hs.no_fact hp]
  cases hone : p.isOne with
  | true =>
    obtain rfl := Polynomial.eq_one_of_isOne hone
    simp only [refute, if_true, if_neg hnew, hflag.2 hp]
  | false => simp only [Bool.false_eq_true, if_false, if_neg hnew]

theorem pass_of_settled (hs : s.Settled) (hflag : s.Flagged) : s.pass = ⟨s, false⟩ := by
  have hfold : ∀ todo kept, s.equations = kept ++ todo →
      todo.foldl Pass.settle ⟨{ s with equations := kept }, false⟩ = ⟨s, false⟩ := by
    intro todo
    induction todo with
    | nil =>
      intro kept hsplit
      rw [List.foldl_nil, ← List.append_nil kept, ← hsplit]
    | cons p todo ih =>
      intro kept hsplit
      have hnew : p ∉ kept := fun hp => rel_of_pairwise hs.nodup hsplit p hp rfl
      have hp : p ∈ s.equations := hsplit ▸ List.mem_append_right kept List.mem_cons_self
      rw [List.foldl_cons, settle_of_settled hs hflag hp hnew]
      have hnext : s.equations = (kept ++ [p]) ++ todo := by rw [hsplit, List.append_assoc, List.singleton_append]
      exact ih (kept ++ [p]) hnext
  exact hfold s.equations [] rfl

/-- Propagation does nothing to a system with nothing left to be done, not even to the order of its equations. -/
theorem propagate_of_settled (hs : s.Settled) (hflag : s.Flagged) : s.propagate = s := by
  have hpass := pass_of_settled hs hflag
  rw [propagate_of_not_progress (by rw [hpass]; exact Bool.false_ne_true), hpass]

/-- A fact about free variables that no equation mentions is recorded, and nothing else happens: there is no equation
to put it into. -/
theorem add_of_fresh (hs : s.Valid) {p : Polynomial} {fact : Fact} (hfact : Fact.ofPolynomial? p = some fact)
    (hfree : ∀ v ∈ p.vars, s.Free v) (hfresh : ∀ q ∈ s.equations, ∀ v ∈ q.vars, ¬fact.Settles v) :
    (s.add p).2 = (s.reserve p).record fact := by
  have hresolve : (s.reserve p).resolve p = p := resolve_of_free hfree
  have hequations : ((s.reserve p).record fact).equations = s.equations := equations_record _ fact
  have hsettled : ((s.reserve p).record fact).Settled := by
    constructor
    · intro q hq v hv
      rw [hequations] at hq
      exact free_record.2 ⟨hs.settled.free hq v hv, hfresh q hq v hv⟩
    · intro q hq
      exact hs.settled.ne_zero (hequations ▸ hq)
    · intro q hq
      exact hs.settled.no_fact (hequations ▸ hq)
    · rw [hequations]
      exact hs.settled.nodup
  have hflag : (s.reserve p).Flagged := hs.flagged
  rw [add_of_fact (hresolve.symm ▸ hfact), propagate_of_settled hsettled (hflag.record fact)]

/-- An equation about free variables that states no fact is kept behind the others, in the order in which the
equations are added. -/
theorem add_of_settled {p : Polynomial} (hfree : ∀ v ∈ p.vars, s.Free v) (hzero : p ≠ .zero)
    (hfact : Fact.ofPolynomial? p = none) (hnew : p ∉ s.equations) :
    (s.add p).2.equations = s.equations ++ [p] ∧ (s.add p).2.values = s.values ∧
      (s.add p).2.replacements = s.replacements := by
  have hresolve : (s.reserve p).resolve p = p := resolve_of_free hfree
  have hequations : (s.reserve p).equations = s.equations := rfl
  have hnonzero : p.isZero = false := Bool.eq_false_iff.2 fun h => hzero (Polynomial.eq_zero_of_isZero h)
  simp only [add, hresolve, hnonzero, Bool.false_eq_true, if_false, hfact, hequations, if_neg hnew]
  cases hone : p.isOne with
  | true =>
    obtain rfl := Polynomial.eq_one_of_isOne hone
    simp only [refute, if_true, hequations, if_neg hnew]
    exact ⟨trivial, rfl, rfl⟩
  | false => exact ⟨rfl, rfl, rfl⟩

end Settled

/-- Whether a system has just these equations and facts, the equations in this order. The flag is not among them, as
it is determined by the equations. -/
structure ConsistsOf (s : EquationSystem) (equations : List Polynomial) (values : List (Var × Bool))
    (replacements : List (Var × Replacement)) : Prop where
  valid : s.Valid
  equations_eq : s.equations = equations
  value?_iff : ∀ {v b}, s.value? v = some b ↔ (v, b) ∈ values
  replacement?_iff : ∀ {v r}, s.replacement? v = some r ↔ (v, r) ∈ replacements

section ConsistsOf

variable {s t : EquationSystem} {equations : List Polynomial} {values : List (Var × Bool)}
  {replacements : List (Var × Replacement)}

theorem Valid.consistsOf (hs : s.Valid) : s.ConsistsOf s.equations s.values.toList s.replacements.toList :=
  ⟨hs, rfl, ExtTreeMap.mem_toList_iff_getElem?_eq_some.symm, ExtTreeMap.mem_toList_iff_getElem?_eq_some.symm⟩

theorem consistsOf_empty : empty.ConsistsOf [] [] [] :=
  ⟨valid_empty, rfl, iff_of_false nofun List.not_mem_nil, iff_of_false nofun List.not_mem_nil⟩

theorem ConsistsOf.free (h : t.ConsistsOf equations values replacements) {v : Var} (hvalue : ∀ b, (v, b) ∉ values)
    (hreplacement : ∀ r, (v, r) ∉ replacements) : t.Free v :=
  ⟨Option.eq_none_iff_forall_ne_some.2 fun b hb => hvalue b (h.value?_iff.1 hb),
    Option.eq_none_iff_forall_ne_some.2 fun r hr => hreplacement r (h.replacement?_iff.1 hr)⟩

theorem ConsistsOf.add_equation (h : t.ConsistsOf equations [] []) {p : Polynomial} (hzero : p ≠ .zero)
    (hfact : Fact.ofPolynomial? p = none) (hnew : p ∉ equations) :
    (t.add p).2.ConsistsOf (equations ++ [p]) [] [] := by
  have hfree : ∀ v ∈ p.vars, t.Free v := fun v _ => h.free (fun _ => List.not_mem_nil) fun _ => List.not_mem_nil
  obtain ⟨hequations, hvalues, hreplacements⟩ := add_of_settled hfree hzero hfact (h.equations_eq.symm ▸ hnew)
  refine ⟨h.valid.add p, hequations.trans (h.equations_eq ▸ rfl), ?_, ?_⟩
  · intro v b
    rw [value?, hvalues]
    exact h.value?_iff
  · intro v r
    rw [replacement?, hreplacements]
    exact h.replacement?_iff

/-- The value of a variable without a fact comes to the others. It touches no equation and no replacement, because
these are about free variables. -/
theorem ConsistsOf.add_value (h : t.ConsistsOf equations values []) {v : Var} {b : Bool}
    (hnew : ∀ c, (v, c) ∉ values) (hfresh : ∀ q ∈ equations, v ∉ q.vars) :
    (t.add (.ofVar v + .constant b)).2.ConsistsOf equations (values ++ [(v, b)]) [] := by
  have hv : t.Free v := h.free hnew fun _ => List.not_mem_nil
  have hfree : ∀ x ∈ (Polynomial.ofVar v + .constant b).vars, t.Free x := by
    intro x hx
    rcases Polynomial.mem_vars_add hx with hx | hx
    · exact Polynomial.mem_vars_ofVar.1 hx ▸ hv
    · exact absurd hx Polynomial.not_mem_vars_constant
  have hadd := add_of_fresh h.valid (Fact.ofPolynomial?_value v b) hfree fun q hq x hx hxv =>
    hfresh q (h.equations_eq ▸ hq) (hxv ▸ hx)
  have hfacts : ∀ u, (t.add (.ofVar v + .constant b)).2.value? u = (if u = v then some b else t.value? u) ∧
      (t.add (.ofVar v + .constant b)).2.replacement? u = t.replacement? u := by
    intro u
    rw [hadd]
    rcases facts_assign (t.reserve (.ofVar v + .constant b)) v b u with ⟨r, hr, -⟩ | ⟨-, hfacts⟩
    · exact absurd (h.replacement?_iff.1 hr) List.not_mem_nil
    · exact hfacts
  refine ⟨h.valid.add _, ?_, ?_, ?_⟩
  · rw [hadd, equations_record]
    exact h.equations_eq
  · intro u c
    rw [(hfacts u).1, List.mem_append, List.mem_singleton, Prod.mk.injEq]
    by_cases huv : u = v
    · subst huv
      simp [hnew c, eq_comm]
    · simp [huv, h.value?_iff]
  · intro u r
    rw [(hfacts u).2]
    exact h.replacement?_iff

/-- The replacement of a variable without a fact by another one comes to the others, if none of these leads to the
variable. -/
theorem ConsistsOf.add_replacement (h : t.ConsistsOf equations values replacements) {v : Var} {r : Replacement}
    (hlt : r.root < v) (hv : t.Free v) (hroot : t.Free r.root) (hled : ∀ u q, (u, q) ∈ replacements → q.root ≠ v)
    (hfresh : ∀ q ∈ equations, v ∉ q.vars) :
    (t.add (.ofVar v + r.polynomial)).2.ConsistsOf equations values (replacements ++ [(v, r)]) := by
  have hfree : ∀ x ∈ (Polynomial.ofVar v + r.polynomial).vars, t.Free x := by
    intro x hx
    rcases Polynomial.mem_vars_add hx with hx | hx
    · exact Polynomial.mem_vars_ofVar.1 hx ▸ hv
    · exact Replacement.eq_root_of_mem_vars hx ▸ hroot
  have hadd := add_of_fresh h.valid (Fact.ofPolynomial?_equal hlt) hfree fun q hq x hx hxv =>
    hfresh q (h.equations_eq ▸ hq) (hxv ▸ hx)
  have hfacts : ∀ u, (t.add (.ofVar v + r.polynomial)).2.value? u = t.value? u ∧
      (t.add (.ofVar v + r.polynomial)).2.replacement? u = if u = v then some r else t.replacement? u := by
    intro u
    rw [hadd]
    obtain ⟨hvalue, ⟨huv, hnew⟩ | ⟨-, q, hq, hqv, -⟩ | ⟨huv, -, hsame⟩⟩ :=
      facts_replace (t.reserve (.ofVar v + r.polynomial)) v r u
    · exact ⟨hvalue, hnew.trans (if_pos huv).symm⟩
    · exact absurd hqv (hled u q (h.replacement?_iff.1 hq))
    · exact ⟨hvalue, hsame.trans (if_neg huv).symm⟩
  refine ⟨h.valid.add _, ?_, ?_, ?_⟩
  · rw [hadd, equations_record]
    exact h.equations_eq
  · intro u b
    rw [(hfacts u).1]
    exact h.value?_iff
  · intro u q
    rw [(hfacts u).2, List.mem_append, List.mem_singleton, Prod.mk.injEq]
    by_cases huv : u = v
    · subst huv
      have hnone : (u, q) ∉ replacements := fun hmem => hv.replacement?_ne q (h.replacement?_iff.2 hmem)
      simp [hnone, eq_comm]
    · simp [huv, h.replacement?_iff]

/-- Adding the polynomials of a list one after the other establishes what every single one adds to. The three parts of
a system, equations, values and replacements, are added back in this way. -/
theorem foldl_add_induction {α : Type} {f : α → Polynomial} {P : List α → EquationSystem → Prop} {l : List α}
    (hstep : ∀ done a todo t, l = done ++ a :: todo → P done t → P (done ++ [a]) (t.add (f a)).2)
    (hstart : P [] t) : P l ((l.map f).foldl (fun s p => (s.add p).2) t) := by
  have hfold : ∀ todo done t, l = done ++ todo → P done t →
      P l ((todo.map f).foldl (fun s p => (s.add p).2) t) := by
    intro todo
    induction todo with
    | nil =>
      intro done t hsplit hdone
      rw [hsplit, List.append_nil]
      exact hdone
    | cons a todo ih =>
      intro done t hsplit hdone
      have hnext : l = (done ++ [a]) ++ todo := by rw [hsplit, List.append_assoc, List.singleton_append]
      exact ih (done ++ [a]) _ hnext (hstep done a todo t hsplit hdone)
  exact hfold l [] t rfl hstart

/-- A variable has only one entry in a map, so that it does not occur again among the entries behind its own. -/
theorem not_mem_of_toList {α : Type} {m : ExtTreeMap Var α} {done todo : List (Var × α)} {v : Var} {a : α}
    (hsplit : m.toList = done ++ (v, a) :: todo) (b : α) : (v, b) ∉ done := fun hmem =>
  rel_of_pairwise m.distinct_keys_toList hsplit (v, b) hmem (Std.compare_eq_iff_eq.2 rfl)

theorem Valid.consistsOf_equations (hs : s.Valid) :
    (s.equations.foldl (fun s p => (s.add p).2) empty).ConsistsOf s.equations [] [] := by
  have hstep : ∀ done p todo (t : EquationSystem), s.equations = done ++ p :: todo → t.ConsistsOf done [] [] →
      (t.add p).2.ConsistsOf (done ++ [p]) [] [] := by
    intro done p todo t hsplit h
    have hp : p ∈ s.equations := hsplit ▸ List.mem_append_right done List.mem_cons_self
    exact h.add_equation (hs.settled.ne_zero hp) (hs.settled.no_fact hp)
      fun hmem => rel_of_pairwise hs.settled.nodup hsplit p hmem rfl
  have hfold := foldl_add_induction (f := id) hstep consistsOf_empty
  rwa [List.map_id] at hfold

theorem Valid.consistsOf_values (hs : s.Valid) (h : t.ConsistsOf s.equations [] []) :
    ((s.values.toList.map fun (v, b) => .ofVar v + .constant b).foldl (fun s p => (s.add p).2) t).ConsistsOf
      s.equations s.values.toList [] := by
  apply foldl_add_induction (P := fun done t => t.ConsistsOf s.equations done []) ?_ h
  intro done entry todo t hsplit h
  obtain ⟨v, b⟩ := entry
  have hb : s.value? v = some b :=
    hs.consistsOf.value?_iff.2 (hsplit ▸ List.mem_append_right done List.mem_cons_self)
  exact h.add_value (not_mem_of_toList hsplit) fun q hq hv => (hs.settled.free hq v hv).value?_ne b hb

theorem Valid.consistsOf_replacements (hs : s.Valid) (h : t.ConsistsOf s.equations s.values.toList []) :
    ((s.replacements.toList.map fun (v, r) => .ofVar v + r.polynomial).foldl (fun s p => (s.add p).2) t).ConsistsOf
      s.equations s.values.toList s.replacements.toList := by
  apply foldl_add_induction (P := fun done t => t.ConsistsOf s.equations s.values.toList done) ?_ h
  intro done entry todo t hsplit h
  obtain ⟨v, r⟩ := entry
  have hr : s.replacement? v = some r :=
    hs.consistsOf.replacement?_iff.2 (hsplit ▸ List.mem_append_right done List.mem_cons_self)
  have hdone : ∀ u q, (u, q) ∈ done → s.replacement? u = some q := fun u q hmem =>
    hs.consistsOf.replacement?_iff.2 (hsplit ▸ List.mem_append_left _ hmem)
  have hvalue : ∀ u, s.value? u = none → ∀ b, (u, b) ∉ s.values.toList := by
    intro u hnone b hmem
    rw [hs.consistsOf.value?_iff.2 hmem] at hnone
    cases hnone
  have hroot := hs.facts.root_free hr
  apply h.add_replacement (hs.facts.root_lt hr)
  · exact h.free (hvalue v (hs.facts.value_none hr)) (not_mem_of_toList hsplit)
  · exact h.free (hvalue r.root hroot.1) fun q hmem => hroot.replacement?_ne q (hdone r.root q hmem)
  · intro u q hmem heq
    have hfree : s.Free v := heq ▸ hs.facts.root_free (hdone u q hmem)
    exact hfree.replacement?_ne r hr
  · intro q hq hv
    exact (hs.settled.free hq v hv).replacement?_ne r hr

/-- The equations and facts of a system, added one after the other to the empty one, make up the system again. Each
fact finds its variable free, because no variable has two facts. -/
theorem Valid.consistsOf_ofPolynomials (hs : s.Valid) :
    (ofPolynomials s.polynomials).ConsistsOf s.equations s.values.toList s.replacements.toList := by
  rw [ofPolynomials, polynomials, List.foldl_append, List.foldl_append]
  exact hs.consistsOf_replacements (hs.consistsOf_values hs.consistsOf_equations)

/-- What a system consists of determines it, up to the number of variables, which may leave room for variables that do
not occur. -/
theorem ConsistsOf.agree (hs : s.ConsistsOf equations values replacements)
    (ht : t.ConsistsOf equations values replacements) :
    t.equations = s.equations ∧ t.values = s.values ∧ t.replacements = s.replacements ∧
      t.consistent = s.consistent := by
  have hequations : t.equations = s.equations := ht.equations_eq.trans hs.equations_eq.symm
  refine ⟨hequations, ?_, ?_, ?_⟩
  · apply ExtTreeMap.ext_getElem?
    intro v
    exact Option.ext fun b => ht.value?_iff.trans hs.value?_iff.symm
  · apply ExtTreeMap.ext_getElem?
    intro v
    exact Option.ext fun r => ht.replacement?_iff.trans hs.replacement?_iff.symm
  · have hflag : t.consistent = false ↔ s.consistent = false := by
      have hone := ht.valid.flagged
      rw [Flagged, hequations] at hone
      exact hone.trans hs.valid.flagged.symm
    rwa [Bool.eq_iff_iff, ← not_iff_not, Bool.not_eq_true, Bool.not_eq_true]

end ConsistsOf

end EquationSystem

end BoolPoly
