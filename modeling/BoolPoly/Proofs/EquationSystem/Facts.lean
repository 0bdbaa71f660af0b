import BoolPoly.EquationSystem.Basic
import BoolPoly.Proofs.Polynomial.Evaluation

open Std

namespace BoolPoly

@[simp] theorem Replacement.eval_polynomial (r : Replacement) (a : Var → Bool) :
    r.polynomial.eval a = (a r.root ^^ r.inverted) := by
  rw [polynomial, Polynomial.eval_add, Polynomial.eval_ofVar, Polynomial.eval_constant]

theorem Replacement.eq_root_of_mem_vars {r : Replacement} {v : Var} (h : v ∈ r.polynomial.vars) :
    v = r.root := by
  rcases Polynomial.mem_vars_add h with h | h
  · exact Polynomial.mem_vars_ofVar.1 h
  · exact absurd h Polynomial.not_mem_vars_constant

namespace Fact

/-- Whether the fact holds under an assignment. -/
def Holds (a : Var → Bool) : Fact → Prop
  | value v b => a v = b
  | allOne m => ∀ v ∈ m.vars, a v = true
  | equal v r => a v = (a r.root ^^ r.inverted)

/-- Whether the fact is about variables with a property, and replaces none by a greater one. A replacement leads to
its smaller variable for this reason. -/
def About (P : Var → Prop) : Fact → Prop
  | value v _ => P v
  | allOne m => ∀ v ∈ m.vars, P v
  | equal v r => P v ∧ P r.root ∧ r.root < v

/-- Whether the fact gives the variable a value or a replacement. -/
def Settles (u : Var) : Fact → Prop
  | value v _ => u = v
  | allOne m => u ∈ m.vars
  | equal v _ => u = v

theorem About.of_settles {P : Var → Prop} {fact : Fact} (h : fact.About P) {u : Var} (hu : fact.Settles u) :
    P u := by
  cases fact with
  | value v b => exact hu ▸ h
  | allOne m => exact h u hu
  | equal v r => exact hu ▸ h.1

/-- The polynomials that state facts, with the facts that they state: a variable, or the sum of two variables, with or
without the constant, and a product of variables with the constant. -/
inductive States (p : Polynomial) : Fact → Prop
  | value {v : Var} (hterms : p.terms = [.ofVar v]) : States p (.value v p.constantTerm)
  | allOne {m : Monomial} (hterms : p.terms = [m]) (hone : p.constantTerm = true) : States p (.allOne m)
  | equal {x y : Var} (hterms : p.terms = [.ofVar x, .ofVar y]) :
      States p (.equal (max x y) ⟨min x y, p.constantTerm⟩)

theorem states_of_ofPolynomial? {p : Polynomial} {fact : Fact} (h : ofPolynomial? p = some fact) :
    States p fact := by
  unfold ofPolynomial? at h
  split at h
  · next m hterms =>
    split at h
    · next v hv =>
      obtain rfl := Option.some.inj h
      rw [Monomial.eq_ofVar hv] at hterms
      exact .value hterms
    · split at h
      · next hone =>
        obtain rfl := Option.some.inj h
        exact .allOne hterms hone
      · cases h
  · next m n hterms =>
    split at h
    · next x y hx hy =>
      obtain rfl := Option.some.inj h
      rw [Monomial.eq_ofVar hx, Monomial.eq_ofVar hy] at hterms
      exact .equal hterms
    · cases h
  · cases h

/-- A polynomial vanishes exactly where the fact holds that it states, so that recording the fact makes the equation
superfluous. -/
theorem States.holds_iff {p : Polynomial} {fact : Fact} (h : States p fact) (a : Var → Bool) :
    fact.Holds a ↔ p.eval a = false := by
  rw [Polynomial.eval_eq_terms]
  cases h with
  | value hterms =>
    rw [hterms, Holds]
    simp only [List.map_cons, List.map_nil, parity_cons, parity_nil, Monomial.eval_ofVar, Bool.xor_false]
    cases p.constantTerm <;> cases a _ <;> simp
  | @allOne m hterms hone =>
    rw [hterms, hone, Holds, ← Monomial.eval_eq_true]
    simp only [List.map_cons, List.map_nil, parity_cons, parity_nil, Bool.xor_false]
    cases m.eval a <;> simp
  | @equal x y hterms =>
    rw [hterms, Holds]
    simp only [List.map_cons, List.map_nil, parity_cons, parity_nil, Monomial.eval_ofVar, Bool.xor_false]
    rcases Nat.le_total x y with hxy | hxy
    · rw [Nat.max_eq_right hxy, Nat.min_eq_left hxy]
      cases a x <;> cases a y <;> cases p.constantTerm <;> simp
    · rw [Nat.max_eq_left hxy, Nat.min_eq_right hxy]
      cases a x <;> cases a y <;> cases p.constantTerm <;> simp

/-- A stated fact is about variables of the polynomial, so that it is about free ones when the polynomial is
resolved. -/
theorem States.about {p : Polynomial} {fact : Fact} (h : States p fact) {P : Var → Prop}
    (hvars : ∀ v ∈ p.vars, P v) : fact.About P := by
  have hterm : ∀ m ∈ p.terms, ∀ v ∈ m.vars, P v := by
    intro m hm v hv
    exact hvars v (Polynomial.mem_vars.2 ⟨m, (List.mem_filter.1 hm).1, hv⟩)
  cases h with
  | @value v hterms =>
    exact hterm (.ofVar v) (by simp [hterms]) v (Monomial.mem_vars_ofVar.2 rfl)
  | @allOne m hterms hone => exact hterm m (by simp [hterms])
  | @equal x y hterms =>
    have hx : P x := hterm (.ofVar x) (by simp [hterms]) x (Monomial.mem_vars_ofVar.2 rfl)
    have hy : P y := hterm (.ofVar y) (by simp [hterms]) y (Monomial.mem_vars_ofVar.2 rfl)
    have hne : x ≠ y := by
      rintro rfl
      have hnodup : p.terms.Nodup := p.nodup_monomialList.filter _
      simp [hterms] at hnodup
    rcases Nat.lt_or_gt_of_ne hne with hxy | hxy
    · rw [Nat.max_eq_right (Nat.le_of_lt hxy), Nat.min_eq_left (Nat.le_of_lt hxy)]
      exact ⟨hy, hx, hxy⟩
    · rw [Nat.max_eq_left (Nat.le_of_lt hxy), Nat.min_eq_right (Nat.le_of_lt hxy)]
      exact ⟨hx, hy, hxy⟩

/-- A stated fact settles some variable. -/
theorem States.exists_settles {p : Polynomial} {fact : Fact} (h : fact.States p) : ∃ v, fact.Settles v := by
  cases h with
  | @value v hterms => exact ⟨v, rfl⟩
  | @allOne m hterms hone =>
    have hone : m.isOne = false := Polynomial.isOne_of_mem_terms (hterms ▸ List.mem_singleton_self m)
    exact List.exists_mem_of_ne_nil m.varList (Monomial.varList_ne_nil hone)
  | @equal x y hterms => exact ⟨max x y, rfl⟩

end Fact

namespace EquationSystem

/-- Whether nothing is recorded about the variable. -/
def Free (s : EquationSystem) (v : Var) : Prop := s.value? v = none ∧ s.replacement? v = none

/-- No variable has two facts, and replacements lead in one step to a smaller free variable. Recording a fact about
free variables keeps it so. -/
structure FactsValid (s : EquationSystem) : Prop where
  value_none : ∀ {v : Var} {r : Replacement}, s.replacement? v = some r → s.value? v = none
  root_lt : ∀ {v : Var} {r : Replacement}, s.replacement? v = some r → r.root < v
  root_free : ∀ {v : Var} {r : Replacement}, s.replacement? v = some r → s.Free r.root

/-- Whether the assignment agrees with every recorded fact. After recording, just the assignments are left that obeyed
the facts before and at which the new one holds. -/
structure Obeys (a : Var → Bool) (s : EquationSystem) : Prop where
  value : ∀ {v : Var} {b : Bool}, s.value? v = some b → a v = b
  replacement : ∀ {v : Var} {r : Replacement}, s.replacement? v = some r → a v = (a r.root ^^ r.inverted)

/-- Values stay, and no variable loses its fact: a replacement may turn into a value or lead elsewhere. -/
structure FactsGrow (s t : EquationSystem) : Prop where
  value : ∀ {v : Var} {b : Bool}, s.value? v = some b → t.value? v = some b
  free : ∀ {v : Var}, t.Free v → s.Free v

theorem FactsGrow.refl (s : EquationSystem) : FactsGrow s s := ⟨id, id⟩

theorem FactsGrow.trans {s t u : EquationSystem} (hst : FactsGrow s t) (htu : FactsGrow t u) : FactsGrow s u :=
  ⟨fun h => htu.value (hst.value h), fun h => hst.free (htu.free h)⟩

section Assign

/-- What recording a value does to a variable that was replaced by the new value's variable: the replacement is
dropped, and the variable has the value, or its negation, itself. -/
private def turn (b : Bool) (s : EquationSystem) (d : Var × Replacement) : EquationSystem :=
  { s with
    values := s.values.insert d.1 (b ^^ d.2.inverted)
    replacements := s.replacements.erase d.1 }

private theorem value?_turn (b : Bool) (s : EquationSystem) (d : Var × Replacement) (u : Var) :
    (turn b s d).value? u = if d.1 = u then some (b ^^ d.2.inverted) else s.value? u := by
  rw [value?, turn, ExtTreeMap.getElem?_insert]
  simp only [Std.compare_eq_iff_eq]
  rfl

private theorem replacement?_turn (b : Bool) (s : EquationSystem) (d : Var × Replacement) (u : Var) :
    (turn b s d).replacement? u = if d.1 = u then none else s.replacement? u := by
  rw [replacement?, turn, ExtTreeMap.getElem?_erase]
  simp only [Std.compare_eq_iff_eq]
  rfl

private theorem facts_foldl_turn_of_not_mem {b : Bool} {l : List (Var × Replacement)} {u : Var}
    (h : ∀ r, (u, r) ∉ l) (s : EquationSystem) :
    (l.foldl (turn b) s).value? u = s.value? u ∧ (l.foldl (turn b) s).replacement? u = s.replacement? u := by
  induction l generalizing s with
  | nil => exact ⟨rfl, rfl⟩
  | cons d l ih =>
    have hne : d.1 ≠ u := by
      rintro rfl
      exact h d.2 List.mem_cons_self
    obtain ⟨hvalue, hreplacement⟩ := ih (fun r hr => h r (List.mem_cons_of_mem d hr)) (turn b s d)
    rw [List.foldl_cons, hvalue, hreplacement, value?_turn, replacement?_turn, if_neg hne, if_neg hne]
    exact ⟨rfl, rfl⟩

private theorem facts_foldl_turn_of_mem {b : Bool} {l : List (Var × Replacement)} {u : Var} {r : Replacement}
    (hkeys : l.Pairwise fun d e => d.1 ≠ e.1) (h : (u, r) ∈ l) (s : EquationSystem) :
    (l.foldl (turn b) s).value? u = some (b ^^ r.inverted) ∧ (l.foldl (turn b) s).replacement? u = none := by
  induction l generalizing s with
  | nil => cases h
  | cons d l ih =>
    obtain ⟨hhead, htail⟩ := List.pairwise_cons.1 hkeys
    rcases List.mem_cons.1 h with rfl | h
    · have hnot : ∀ q, (u, q) ∉ l := fun q hq => hhead _ hq rfl
      obtain ⟨hvalue, hreplacement⟩ := facts_foldl_turn_of_not_mem (b := b) hnot (turn b s (u, r))
      rw [List.foldl_cons, hvalue, hreplacement, value?_turn, replacement?_turn, if_pos rfl, if_pos rfl]
      exact ⟨rfl, rfl⟩
    · exact ih htail h (turn b s d)

/-- What recording a value does to the facts of one variable: those that were replaced by `v` get a value in turn, and
nothing else changes but the value of `v`. -/
theorem facts_assign (s : EquationSystem) (v : Var) (b : Bool) (u : Var) :
    (∃ r, s.replacement? u = some r ∧ r.root = v ∧
      (s.assign v b).value? u = some (b ^^ r.inverted) ∧ (s.assign v b).replacement? u = none) ∨
    ((∀ r, s.replacement? u = some r → r.root ≠ v) ∧
      (s.assign v b).value? u = (if u = v then some b else s.value? u) ∧
      (s.assign v b).replacement? u = s.replacement? u) := by
  let dependents := s.replacements.toList.filter fun d => d.2.root == v
  let start : EquationSystem := { s with values := s.values.insert v b }
  have hassign : s.assign v b = dependents.foldl (turn b) start := rfl
  have hmem : ∀ r, (u, r) ∈ dependents ↔ s.replacement? u = some r ∧ r.root = v := by
    intro r
    rw [List.mem_filter, ExtTreeMap.mem_toList_iff_getElem?_eq_some, beq_iff_eq]
    rfl
  rw [hassign]
  by_cases hdep : ∃ r, (u, r) ∈ dependents
  · obtain ⟨r, hr⟩ := hdep
    obtain ⟨hreplaced, hroot⟩ := (hmem r).1 hr
    have hkeys : dependents.Pairwise fun d e => d.1 ≠ e.1 := by
      apply List.Pairwise.filter
      apply s.replacements.distinct_keys_toList.imp
      intro d e hne heq
      exact hne (Std.compare_eq_iff_eq.2 heq)
    exact .inl ⟨r, hreplaced, hroot, facts_foldl_turn_of_mem hkeys hr start⟩
  · have hnot : ∀ r, (u, r) ∉ dependents := fun r hr => hdep ⟨r, hr⟩
    obtain ⟨hvalue, hreplacement⟩ := facts_foldl_turn_of_not_mem (b := b) hnot start
    refine .inr ⟨fun r hr hroot => hnot r ((hmem r).2 ⟨hr, hroot⟩), ?_, hreplacement⟩
    rw [hvalue, value?, ExtTreeMap.getElem?_insert]
    simp only [Std.compare_eq_iff_eq, eq_comm (a := v)]
    rfl

end Assign

/-- What recording a replacement does to the facts of one variable: those that were replaced by `v` are led on to its
root, and nothing else changes but the replacement of `v`. -/
theorem facts_replace (s : EquationSystem) (v : Var) (r : Replacement) (u : Var) :
    (s.replace v r).value? u = s.value? u ∧
    ((u = v ∧ (s.replace v r).replacement? u = some r) ∨
      (u ≠ v ∧ ∃ old, s.replacement? u = some old ∧ old.root = v ∧
        (s.replace v r).replacement? u = some ⟨r.root, old.inverted ^^ r.inverted⟩) ∨
      (u ≠ v ∧ (∀ old, s.replacement? u = some old → old.root ≠ v) ∧
        (s.replace v r).replacement? u = s.replacement? u)) := by
  refine ⟨rfl, ?_⟩
  have hlookup : (s.replace v r).replacement? u = if v = u then some r else
      (s.replacement? u).map fun old =>
        if old.root = v then ⟨r.root, old.inverted ^^ r.inverted⟩ else old := by
    rw [replacement?, replace, ExtTreeMap.getElem?_insert, ExtTreeMap.getElem?_map]
    simp only [Std.compare_eq_iff_eq]
    rfl
  rw [hlookup]
  by_cases huv : u = v
  · exact .inl ⟨huv, if_pos huv.symm⟩
  · rw [if_neg (Ne.symm huv)]
    cases hold : s.replacement? u with
    | none => exact .inr (.inr ⟨huv, nofun, rfl⟩)
    | some old =>
      by_cases hroot : old.root = v
      · refine .inr (.inl ⟨huv, old, rfl, hroot, ?_⟩)
        rw [Option.map_some, if_pos hroot]
      · refine .inr (.inr ⟨huv, ?_, ?_⟩)
        · rintro old' h
          obtain rfl := Option.some.inj h
          exact hroot
        · rw [Option.map_some, if_neg hroot]

theorem free_assign {s : EquationSystem} {v : Var} {b : Bool} {u : Var} :
    (s.assign v b).Free u ↔ s.Free u ∧ u ≠ v := by
  rcases s.facts_assign v b u with ⟨r, hr, -, hvalue, -⟩ | ⟨-, hvalue, hreplacement⟩
  · rw [Free, Free, hvalue, hr]
    simp
  · rw [Free, Free, hvalue, hreplacement]
    by_cases huv : u = v
    · simp [huv]
    · simp [huv]

theorem free_replace {s : EquationSystem} {v : Var} {r : Replacement} {u : Var} :
    (s.replace v r).Free u ↔ s.Free u ∧ u ≠ v := by
  obtain ⟨hvalue, ⟨rfl, hnew⟩ | ⟨hne, old, hold, -, hnew⟩ | ⟨hne, -, hnew⟩⟩ := s.facts_replace v r u
  · rw [Free, hnew]
    simp
  · rw [Free, Free, hnew, hold]
    simp
  · rw [Free, Free, hnew, hvalue]
    simp [hne]

theorem FactsValid.assign {s : EquationSystem} (hs : s.FactsValid) {v : Var} (hv : s.Free v) (b : Bool) :
    (s.assign v b).FactsValid := by
  have hold : ∀ {u r}, (s.assign v b).replacement? u = some r →
      s.replacement? u = some r ∧ r.root ≠ v ∧ (s.assign v b).value? u = none := by
    intro u r hr
    rcases s.facts_assign v b u with ⟨q, -, -, -, hnone⟩ | ⟨hroot, hvalue, hsame⟩
    · rw [hnone] at hr
      cases hr
    · rw [hsame] at hr
      have hne : u ≠ v := by
        rintro rfl
        rw [hv.2] at hr
        cases hr
      rw [if_neg hne] at hvalue
      exact ⟨hr, hroot r hr, hvalue.trans (hs.value_none hr)⟩
  refine ⟨fun hr => (hold hr).2.2, fun hr => hs.root_lt (hold hr).1, ?_⟩
  intro u r hr
  obtain ⟨hr, hne, -⟩ := hold hr
  exact free_assign.2 ⟨hs.root_free hr, hne⟩

theorem FactsValid.replace {s : EquationSystem} (hs : s.FactsValid) {v : Var} {r : Replacement}
    (hv : s.Free v) (hroot : s.Free r.root) (hlt : r.root < v) : (s.replace v r).FactsValid := by
  have hfree : (s.replace v r).Free r.root := free_replace.2 ⟨hroot, Nat.ne_of_lt hlt⟩
  constructor
  · intro u q hq
    obtain ⟨hvalue, ⟨rfl, -⟩ | ⟨-, old, hold, -, -⟩ | ⟨-, -, hnew⟩⟩ := s.facts_replace v r u
    · exact hvalue.trans hv.1
    · exact hvalue.trans (hs.value_none hold)
    · exact hvalue.trans (hs.value_none (hnew ▸ hq))
  · intro u q hq
    obtain ⟨-, ⟨rfl, hnew⟩ | ⟨-, old, hold, hlast, hnew⟩ | ⟨-, -, hnew⟩⟩ := s.facts_replace v r u
    · obtain rfl := Option.some.inj (hnew.symm.trans hq)
      exact hlt
    · obtain rfl := Option.some.inj (hnew.symm.trans hq)
      exact Nat.lt_trans hlt (hlast ▸ hs.root_lt hold)
    · exact hs.root_lt (hnew ▸ hq)
  · intro u q hq
    obtain ⟨-, ⟨rfl, hnew⟩ | ⟨-, old, hold, -, hnew⟩ | ⟨-, hlast, hnew⟩⟩ := s.facts_replace v r u
    · obtain rfl := Option.some.inj (hnew.symm.trans hq)
      exact hfree
    · obtain rfl := Option.some.inj (hnew.symm.trans hq)
      exact hfree
    · rw [hnew] at hq
      exact free_replace.2 ⟨hs.root_free hq, hlast q hq⟩

/-- An assignment obeys the facts with a new value exactly if it obeyed them before and has the value. The variables
that were replaced by the new one get their values from it in both cases. -/
theorem obeys_assign {s : EquationSystem} (hs : s.FactsValid) {v : Var} (hv : s.Free v) (b : Bool)
    (a : Var → Bool) : Obeys a (s.assign v b) ↔ Obeys a s ∧ a v = b := by
  constructor
  · intro h
    have hav : a v = b := by
      rcases s.facts_assign v b v with ⟨r, hr, -⟩ | ⟨-, hvalue, -⟩
      · rw [hv.2] at hr
        cases hr
      · rw [if_pos rfl] at hvalue
        exact h.value hvalue
    refine ⟨⟨?_, ?_⟩, hav⟩
    · intro u c hc
      rcases s.facts_assign v b u with ⟨r, hr, -⟩ | ⟨-, hvalue, -⟩
      · rw [hs.value_none hr] at hc
        cases hc
      · have hne : u ≠ v := by
          rintro rfl
          rw [hv.1] at hc
          cases hc
        rw [if_neg hne] at hvalue
        exact h.value (hvalue.trans hc)
    · intro u q hq
      rcases s.facts_assign v b u with ⟨r, hr, hroot, hvalue, -⟩ | ⟨-, -, hsame⟩
      · obtain rfl := Option.some.inj (hr.symm.trans hq)
        rw [h.value hvalue, hroot, hav]
      · exact h.replacement (hsame.trans hq)
  · rintro ⟨h, hav⟩
    constructor
    · intro u c hc
      rcases s.facts_assign v b u with ⟨r, hr, hroot, hvalue, -⟩ | ⟨-, hvalue, -⟩
      · obtain rfl := Option.some.inj (hvalue.symm.trans hc)
        rw [h.replacement hr, hroot, hav]
      · rw [hvalue] at hc
        by_cases huv : u = v
        · rw [if_pos huv] at hc
          obtain rfl := Option.some.inj hc
          rw [huv, hav]
        · rw [if_neg huv] at hc
          exact h.value hc
    · intro u q hq
      rcases s.facts_assign v b u with ⟨r, -, -, -, hnone⟩ | ⟨-, -, hsame⟩
      · rw [hnone] at hq
        cases hq
      · exact h.replacement (hsame ▸ hq)

/-- An assignment obeys the facts with a new replacement exactly if it obeyed them before and the variable equals its
replacement. Variables that were replaced by it are led on to its root. -/
theorem obeys_replace {s : EquationSystem} {v : Var} {r : Replacement} (hv : s.Free v)
    (a : Var → Bool) : Obeys a (s.replace v r) ↔ Obeys a s ∧ a v = (a r.root ^^ r.inverted) := by
  constructor
  · intro h
    have hav : a v = (a r.root ^^ r.inverted) := by
      obtain ⟨-, ⟨-, hnew⟩ | ⟨hne, -⟩ | ⟨hne, -⟩⟩ := s.facts_replace v r v
      · exact h.replacement hnew
      · exact absurd rfl hne
      · exact absurd rfl hne
    refine ⟨⟨fun hc => h.value ((s.facts_replace v r _).1.trans hc), ?_⟩, hav⟩
    intro u q hq
    obtain ⟨-, ⟨rfl, -⟩ | ⟨-, old, hold, hlast, hnew⟩ | ⟨-, -, hnew⟩⟩ := s.facts_replace v r u
    · rw [hv.2] at hq
      cases hq
    · obtain rfl := Option.some.inj (hold.symm.trans hq)
      rw [h.replacement hnew, hlast, hav, Bool.xor_assoc, Bool.xor_comm r.inverted]
    · exact h.replacement (hnew.trans hq)
  · rintro ⟨h, hav⟩
    refine ⟨fun hc => h.value ((s.facts_replace v r _).1.symm.trans hc), ?_⟩
    intro u q hq
    obtain ⟨-, ⟨rfl, hnew⟩ | ⟨-, old, hold, hlast, hnew⟩ | ⟨-, -, hnew⟩⟩ := s.facts_replace v r u
    · obtain rfl := Option.some.inj (hnew.symm.trans hq)
      exact hav
    · obtain rfl := Option.some.inj (hnew.symm.trans hq)
      rw [h.replacement hold, hlast, hav, Bool.xor_assoc, Bool.xor_comm r.inverted]
    · exact h.replacement (hnew.symm.trans hq)

theorem factsGrow_assign {s : EquationSystem} (hs : s.FactsValid) {v : Var} (hv : s.Free v) (b : Bool) :
    FactsGrow s (s.assign v b) := by
  refine ⟨?_, fun h => (free_assign.1 h).1⟩
  intro u c hc
  rcases s.facts_assign v b u with ⟨r, hr, -⟩ | ⟨-, hvalue, -⟩
  · rw [hs.value_none hr] at hc
    cases hc
  · have hne : u ≠ v := by
      rintro rfl
      rw [hv.1] at hc
      cases hc
    rw [hvalue, if_neg hne, hc]

section AllOne

variable {s : EquationSystem} {vs : List Var}

theorem free_foldl_assign {u : Var} :
    (vs.foldl (fun s v => s.assign v true) s).Free u ↔ s.Free u ∧ u ∉ vs := by
  induction vs generalizing s with
  | nil => simp
  | cons v vs ih =>
    rw [List.foldl_cons, ih, free_assign, List.mem_cons, not_or, and_assoc]

/-- Distinct free variables stay free until their turn, so that the variables of a product are given the value one,
one after the other, as if each were the first. -/
theorem foldl_assign_spec (hs : s.FactsValid) (hnodup : vs.Nodup) (hfree : ∀ v ∈ vs, s.Free v) :
    (vs.foldl (fun s v => s.assign v true) s).FactsValid ∧
      (∀ a, Obeys a (vs.foldl (fun s v => s.assign v true) s) ↔ Obeys a s ∧ ∀ v ∈ vs, a v = true) ∧
      FactsGrow s (vs.foldl (fun s v => s.assign v true) s) := by
  induction vs generalizing s with
  | nil => exact ⟨hs, fun a => by simp, .refl s⟩
  | cons v vs ih =>
    obtain ⟨hv, hnodup⟩ := List.nodup_cons.1 hnodup
    have hfirst : s.Free v := hfree v List.mem_cons_self
    have hrest : ∀ u ∈ vs, (s.assign v true).Free u := by
      intro u hu
      refine free_assign.2 ⟨hfree u (List.mem_cons_of_mem v hu), ?_⟩
      rintro rfl
      exact hv hu
    obtain ⟨hvalid, hobeys, hgrow⟩ := ih (hs.assign hfirst true) hnodup hrest
    refine ⟨hvalid, fun a => ?_, (factsGrow_assign hs hfirst true).trans hgrow⟩
    rw [List.foldl_cons, hobeys, obeys_assign hs hfirst, List.forall_mem_cons, and_assoc]

end AllOne

theorem free_record {s : EquationSystem} {fact : Fact} {u : Var} :
    (s.record fact).Free u ↔ s.Free u ∧ ¬ fact.Settles u := by
  cases fact with
  | value v b => exact free_assign
  | allOne m => exact free_foldl_assign
  | equal v r => exact free_replace

theorem FactsValid.record {s : EquationSystem} (hs : s.FactsValid) {fact : Fact} (hfact : fact.About s.Free) :
    (s.record fact).FactsValid := by
  cases fact with
  | value v b => exact hs.assign hfact b
  | allOne m => exact (foldl_assign_spec hs m.vars.nodup_toList hfact).1
  | equal v r => exact hs.replace hfact.1 hfact.2.1 hfact.2.2

/-- Recording a fact restricts the assignments that obey the facts to those where it holds. The fact may give values
to several variables, or replace one. -/
theorem obeys_record {s : EquationSystem} (hs : s.FactsValid) {fact : Fact} (hfact : fact.About s.Free)
    (a : Var → Bool) : Obeys a (s.record fact) ↔ Obeys a s ∧ fact.Holds a := by
  cases fact with
  | value v b => exact obeys_assign hs hfact b a
  | allOne m => exact (foldl_assign_spec hs m.vars.nodup_toList hfact).2.1 a
  | equal v r => exact obeys_replace hfact.1 a

theorem factsGrow_record {s : EquationSystem} (hs : s.FactsValid) {fact : Fact} (hfact : fact.About s.Free) :
    FactsGrow s (s.record fact) := by
  cases fact with
  | value v b => exact factsGrow_assign hs hfact b
  | allOne m => exact (foldl_assign_spec hs m.vars.nodup_toList hfact).2.2
  | equal v r => exact ⟨id, fun h => (free_replace.1 h).1⟩

theorem frame_assign (s : EquationSystem) (v : Var) (b : Bool) :
    (s.assign v b).numVars = s.numVars ∧ (s.assign v b).consistent = s.consistent := by
  simp only [assign]
  generalize s.replacements.toList.filter _ = dependents
  suffices h : ∀ t : EquationSystem, (dependents.foldl (turn b) t).numVars = t.numVars ∧
      (dependents.foldl (turn b) t).consistent = t.consistent from h _
  induction dependents with
  | nil => exact fun t => ⟨rfl, rfl⟩
  | cons d dependents ih => exact fun t => ih (turn b t d)

/-- Recording a fact touches neither the number of variables nor the flag. The equations are left as they are, until
propagation puts the fact into them. -/
theorem frame_record (s : EquationSystem) (fact : Fact) :
    (s.record fact).numVars = s.numVars ∧ (s.record fact).consistent = s.consistent := by
  cases fact with
  | value v b => exact frame_assign s v b
  | allOne m =>
    simp only [record]
    induction m.varList generalizing s with
    | nil => exact ⟨rfl, rfl⟩
    | cons v vs ih =>
      obtain ⟨hnum, hflag⟩ := ih (s.assign v true)
      obtain ⟨hnum', hflag'⟩ := frame_assign s v true
      exact ⟨hnum.trans hnum', hflag.trans hflag'⟩
  | equal v r => exact ⟨rfl, rfl⟩

end EquationSystem

end BoolPoly
