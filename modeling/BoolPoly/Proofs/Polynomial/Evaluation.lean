import BoolPoly.Polynomial
import Mathlib.Logic.Function.Basic

open Std

namespace BoolPoly

section Bind

variable {α β : Type} {f : α → Option β} {l : List α}

/-- A list of steps succeeds with the list of their results if each of them succeeds. It is used for values under a
partial assignment. -/
theorem mapM_eq_some_map {g : α → β} (h : ∀ x ∈ l, f x = some (g x)) : l.mapM f = some (l.map g) := by
  induction l with
  | nil => rfl
  | cons x l ih =>
    obtain ⟨hx, hl⟩ := List.forall_mem_cons.1 h
    rw [List.mapM_cons, hx, ih hl]
    rfl

/-- A list of steps fails just if one of them does. -/
theorem mapM_eq_none_iff : l.mapM f = none ↔ ∃ x ∈ l, f x = none := by
  induction l with
  | nil => simp
  | cons x l ih =>
    simp only [List.mapM_cons, List.mem_cons, exists_eq_or_imp, ← ih]
    cases f x with
    | none => simp
    | some b => cases l.mapM f <;> simp

end Bind

theorem parity_filter {α : Type} (f : α → Bool) (keep : α → Bool) (l : List α) :
    parity (l.map f) = (parity ((l.filter keep).map f) ^^ parity ((l.filter fun x => !keep x).map f)) := by
  induction l with
  | nil => rfl
  | cons x l ih =>
    cases hkeep : keep x with
    | false =>
      rw [List.map_cons, parity_cons, ih, List.filter_cons_of_neg (by simp [hkeep]),
        List.filter_cons_of_pos (by simp [hkeep]), List.map_cons, parity_cons, Bool.xor_left_comm]
    | true =>
      rw [List.map_cons, parity_cons, ih, List.filter_cons_of_pos hkeep,
        List.filter_cons_of_neg (by simp [hkeep]), List.map_cons, parity_cons, Bool.xor_assoc]

theorem parity_map_and {α : Type} (f : α → Bool) (b : Bool) (l : List α) :
    parity (l.map fun x => f x && b) = (parity (l.map f) && b) := by
  induction l with
  | nil => rfl
  | cons x l ih => rw [List.map_cons, parity_cons, ih, List.map_cons, parity_cons, Bool.and_xor_distrib_right]

namespace OrderedSet

variable {α : Type} [Ord α] [LawfulEqOrd α]

theorem parity_toggleList (f : α → Bool) (a : α) (l : List α) :
    parity ((toggleList a l).map f) = (f a ^^ parity (l.map f)) := by
  induction l with
  | nil => rfl
  | cons b rest ih =>
    rw [toggleList]
    split
    · rfl
    · next heq =>
      obtain rfl : a = b := LawfulEqOrd.eq_of_compare heq
      rw [List.map_cons, parity_cons, ← Bool.xor_assoc, Bool.xor_self, Bool.false_xor]
    · rw [List.map_cons, parity_cons, ih, List.map_cons, parity_cons, Bool.xor_left_comm]

variable [TransOrd α]

/-- An entry that is toggled counts as often as it occurs, so no condition on the list is needed: what is toggled
twice cancels, and has no share in the parity. -/
theorem parity_toggleAll (f : α → Bool) (l : List α) (s : OrderedSet α) :
    parity ((toggleAll l s).toList.map f) = (parity (l.map f) ^^ parity (s.toList.map f)) := by
  induction l with
  | nil => simp [toggleAll]
  | cons a l ih =>
    rw [toggleAll, List.foldr_cons, ← toggleAll]
    rw [toggle, parity_toggleList, ih, List.map_cons, parity_cons, Bool.xor_assoc]

theorem mem_or_mem_of_mem_toggleAll {l : List α} {s : OrderedSet α} {x : α} (h : x ∈ toggleAll l s) :
    x ∈ l ∨ x ∈ s := by
  induction l with
  | nil => exact .inr h
  | cons a l ih =>
    rw [toggleAll, List.foldr_cons, ← toggleAll, mem_toggle] at h
    rcases h with ⟨rfl, -⟩ | ⟨-, hx⟩
    · exact .inl List.mem_cons_self
    · exact (ih hx).imp_left (List.mem_cons_of_mem a)

end OrderedSet

namespace Monomial

@[simp] theorem eval_one (a : Var → Bool) : one.eval a = true := rfl

@[simp] theorem eval_ofVar (a : Var → Bool) (v : Var) : (ofVar v).eval a = a v := by
  simp [ofVar, eval, varList, OrderedSet.singleton]

@[simp] theorem mem_vars_ofVar {v x : Var} : x ∈ (ofVar v).vars ↔ x = v := OrderedSet.mem_singleton

theorem eq_ofVar {m : Monomial} {v : Var} (h : m.varList = [v]) : m = ofVar v := by
  obtain ⟨s⟩ := m
  exact congrArg Monomial.mk (OrderedSet.ext_toList h)

theorem eval_congr {a b : Var → Bool} {m : Monomial} (h : ∀ v ∈ m.vars, a v = b v) :
    m.eval a = m.eval b := by
  rw [Bool.eq_iff_iff, eval_eq_true, eval_eq_true]
  constructor
  · intro ha v hv
    rw [← h v hv, ha v hv]
  · intro hb v hv
    rw [h v hv, hb v hv]

theorem isOne_iff {m : Monomial} : m.isOne = true ↔ m = one := by
  obtain ⟨⟨l, hl⟩⟩ := m
  cases l with
  | nil => exact ⟨fun _ => rfl, fun _ => rfl⟩
  | cons v l => exact ⟨nofun, nofun⟩

theorem varList_ne_nil {m : Monomial} (hm : m.isOne = false) : m.varList ≠ [] := List.isEmpty_eq_false_iff.1 hm

theorem eval_update_of_not_contains {a : Var → Bool} {m : Monomial} {v : Var} (h : m.contains v = false)
    (b : Bool) : m.eval (Function.update a v b) = m.eval a := by
  apply eval_congr
  intro x hx
  apply Function.update_of_ne
  rintro rfl
  rw [contains, decide_eq_true hx] at h
  cases h

/-- Fixing a factor leaves the other factors, unless it is fixed to zero: then the monomial is zero. -/
theorem eval_update_of_contains {a : Var → Bool} {m : Monomial} {v : Var} (h : m.contains v = true)
    (b : Bool) : m.eval (Function.update a v b) = (b && (m.without v).eval a) := by
  have hv : v ∈ m.vars := of_decide_eq_true h
  rw [Bool.eq_iff_iff, Bool.and_eq_true, eval_eq_true, eval_eq_true]
  constructor
  · intro hall
    refine ⟨?_, ?_⟩
    · have hb := hall v hv
      rwa [Function.update_self] at hb
    · intro x hx
      obtain ⟨hx, hne⟩ := mem_vars_without.1 hx
      have hax := hall x hx
      rwa [Function.update_of_ne hne] at hax
  · rintro ⟨hb, hrest⟩ x hx
    by_cases hxv : x = v
    · rw [hxv, Function.update_self, hb]
    · rw [Function.update_of_ne hxv]
      exact hrest x (mem_vars_without.2 ⟨hx, hxv⟩)

/-- Taking a factor out counts it as one. -/
theorem eval_without (a : Var → Bool) (m : Monomial) (v : Var) :
    (m.without v).eval a = m.eval (Function.update a v true) := by
  cases hv : m.contains v with
  | true => rw [eval_update_of_contains hv, Bool.true_and]
  | false =>
    rw [eval_update_of_not_contains hv, Bool.eq_iff_iff, eval_eq_true, eval_eq_true]
    simp only [mem_vars_without]
    have hne : ∀ x ∈ m.vars, x ≠ v := by
      rintro x hx rfl
      exact of_decide_eq_false hv hx
    exact ⟨fun h x hx => h x ⟨hx, hne x hx⟩, fun h x hx => h x hx.1⟩

theorem eval_ofVars (a : Var → Bool) (vs : List Var) : (ofVars vs).eval a = vs.all a := by
  rw [Bool.eq_iff_iff, eval_eq_true, List.all_eq_true]
  simp only [ofVars, OrderedSet.mem_ofList]

/-- Under a partial assignment that binds every factor the value is that of the assignment. -/
theorem eval?_eq_some {f : Var → Option Bool} {a : Var → Bool} {m : Monomial}
    (h : ∀ v ∈ m.vars, f v = some (a v)) : m.eval? f = some (m.eval a) := by
  have hmap : m.varList.mapM f = some (m.varList.map a) := mapM_eq_some_map h
  rw [eval?, hmap, eval, Option.map_some, List.all_map]
  rfl

theorem eval?_eq_none_iff {f : Var → Option Bool} {m : Monomial} : m.eval? f = none ↔ ∃ v ∈ m.vars, f v = none := by
  rw [eval?, Option.map_eq_none_iff]
  exact mapM_eq_none_iff

end Monomial

namespace Polynomial

theorem eval_sum (a : Var → Bool) (ms : List Monomial) :
    (sum ms).eval a = parity (ms.map (Monomial.eval a)) := by
  rw [eval, monomialList, sum, OrderedSet.parity_toggleAll]
  exact Bool.xor_false _

@[simp] theorem eval_zero (a : Var → Bool) : zero.eval a = false := rfl

@[simp] theorem eval_ofMonomial (a : Var → Bool) (m : Monomial) : (ofMonomial m).eval a = m.eval a := by
  simp [ofMonomial, eval, monomialList, OrderedSet.singleton]

@[simp] theorem eval_ofVar (a : Var → Bool) (v : Var) : (ofVar v).eval a = a v := by
  rw [ofVar, eval_ofMonomial, Monomial.eval_ofVar]

@[simp] theorem eval_constant (a : Var → Bool) (b : Bool) : (constant b).eval a = b := by
  cases b with
  | false => rfl
  | true => rfl

@[simp] theorem eval_one (a : Var → Bool) : one.eval a = true := eval_constant a true

/-- A sum has the sum of the values: the monomials that cancel are counted twice, which makes no difference to the
parity. -/
@[simp] theorem eval_add (a : Var → Bool) (p q : Polynomial) : (p + q).eval a = (p.eval a ^^ q.eval a) :=
  OrderedSet.parity_toggleAll (Monomial.eval a) p.monomialList q.monomials

theorem eval_addMonomial (a : Var → Bool) (p : Polynomial) (m : Monomial) :
    (p.addMonomial m).eval a = (m.eval a ^^ p.eval a) :=
  OrderedSet.parity_toggleList (Monomial.eval a) m p.monomialList

theorem eval_mulMonomial (a : Var → Bool) (p : Polynomial) (m : Monomial) :
    (p.mulMonomial m).eval a = (p.eval a && m.eval a) := by
  rw [mulMonomial, eval_sum, List.map_map]
  have hprod : (Monomial.eval a ∘ fun x => x * m) = fun x => Monomial.eval a x && m.eval a := by
    funext x
    exact Monomial.eval_mul a x m
  rw [hprod, parity_map_and]
  rfl

/-- Fixing a variable has the value under the assignment with that variable changed, whatever its value was before. -/
theorem eval_assign (a : Var → Bool) (p : Polynomial) (v : Var) (b : Bool) :
    (p.assign v b).eval a = p.eval (Function.update a v b) := by
  rw [assign, eval_sum, eval]
  induction p.monomialList with
  | nil => rfl
  | cons m l ih =>
    rw [List.map_cons, parity_cons, ← ih]
    cases hm : m.contains v with
    | false =>
      rw [List.filterMap_cons_some (by simp only [hm, Bool.false_eq_true, if_false]; rfl), List.map_cons,
        parity_cons, Monomial.eval_update_of_not_contains hm]
    | true =>
      rw [Monomial.eval_update_of_contains hm]
      cases b with
      | false =>
        rw [List.filterMap_cons_none (by simp [hm]), Bool.false_and, Bool.false_xor]
      | true =>
        rw [List.filterMap_cons_some (by simp only [hm, if_true]; rfl), List.map_cons, parity_cons, Bool.true_and]

/-- Substituting has the value under the assignment in which the variable has the value of what replaces it, also when
the variable occurs there itself: it is the old value that counts there. -/
theorem eval_substitute (a : Var → Bool) (p : Polynomial) (v : Var) (r : Polynomial) :
    (p.substitute v r).eval a = p.eval (Function.update a v (r.eval a)) := by
  rw [substitute, eval_sum, eval]
  induction p.monomialList with
  | nil => rfl
  | cons m l ih =>
    rw [List.flatMap_cons, List.map_append, parity_append, ih, List.map_cons, parity_cons]
    congr 1
    cases hm : m.contains v with
    | false =>
      rw [Monomial.eval_update_of_not_contains hm]
      simp
    | true =>
      rw [Monomial.eval_update_of_contains hm, if_pos rfl, List.map_map]
      have hprod : (Monomial.eval a ∘ fun x => m.without v * x) =
          fun x => Monomial.eval a x && (m.without v).eval a := by
        funext x
        exact (Monomial.eval_mul a (m.without v) x).trans (Bool.and_comm _ _)
      rw [hprod, parity_map_and]
      rfl

theorem eval_assign_of_eq {a : Var → Bool} {v : Var} {b : Bool} (h : a v = b) (p : Polynomial) :
    (p.assign v b).eval a = p.eval a := by
  rw [eval_assign, ← h, Function.update_eq_self]

theorem eval_substitute_of_eq {a : Var → Bool} {v : Var} {r : Polynomial} (h : a v = r.eval a)
    (p : Polynomial) : (p.substitute v r).eval a = p.eval a := by
  rw [eval_substitute, ← h, Function.update_eq_self]

theorem mem_monomialList {p : Polynomial} {m : Monomial} : m ∈ p.monomialList ↔ m ∈ p.monomials := Iff.rfl

theorem mem_vars {p : Polynomial} {v : Var} : v ∈ p.vars ↔ ∃ m ∈ p.monomials, v ∈ m.vars := by
  rw [vars, OrderedSet.mem_ofList, List.mem_flatMap]
  rfl

theorem mem_vars_of_mem_terms {p : Polynomial} {m : Monomial} (hm : m ∈ p.terms) {v : Var} (hv : v ∈ m.vars) :
    v ∈ p.vars :=
  mem_vars.2 ⟨m, mem_monomialList.1 (List.mem_filter.1 hm).1, hv⟩

theorem isOne_of_mem_terms {p : Polynomial} {m : Monomial} (hm : m ∈ p.terms) : m.isOne = false := by
  simpa using (List.mem_filter.1 hm).2

/-- A term of degree one is a variable. -/
theorem exists_eq_ofVar_of_mem_terms {p : Polynomial} {m : Monomial} (hm : m ∈ p.terms) (hdegree : m.degree ≤ 1) :
    ∃ v, Monomial.ofVar v = m := by
  have hne : m.varList ≠ [] := Monomial.varList_ne_nil (isOne_of_mem_terms hm)
  obtain ⟨v, hv⟩ := List.length_eq_one_iff.1 (Nat.le_antisymm hdegree (List.length_pos_iff.2 hne))
  exact ⟨v, (Monomial.eq_ofVar hv).symm⟩

theorem exists_mem_terms {p : Polynomial} {v : Var} (hv : v ∈ p.vars) : ∃ m ∈ p.terms, v ∈ m.vars := by
  obtain ⟨m, hm, hv⟩ := mem_vars.1 hv
  refine ⟨m, List.mem_filter.2 ⟨hm, ?_⟩, hv⟩
  rw [Bool.not_eq_true', Bool.eq_false_iff]
  intro hone
  rw [Monomial.isOne_iff.1 hone] at hv
  exact OrderedSet.not_mem_empty v hv

/-- Only the values of the variables that occur matter. A variable whose monomials have cancelled does not occur. -/
theorem eval_congr {a b : Var → Bool} {p : Polynomial} (h : ∀ v ∈ p.vars, a v = b v) :
    p.eval a = p.eval b := by
  rw [eval, eval]
  congr 1
  apply List.map_congr_left
  intro m hm
  apply Monomial.eval_congr
  intro v hv
  exact h v (mem_vars.2 ⟨m, hm, hv⟩)

theorem eval?_eq_some {f : Var → Option Bool} {a : Var → Bool} {p : Polynomial}
    (h : ∀ v ∈ p.vars, f v = some (a v)) : p.eval? f = some (p.eval a) := by
  have hmap : p.monomialList.mapM (Monomial.eval? f) = some (p.monomialList.map (Monomial.eval a)) :=
    mapM_eq_some_map fun m hm => Monomial.eval?_eq_some fun v hv => h v (mem_vars.2 ⟨m, hm, hv⟩)
  rw [eval?, hmap, eval, Option.map_some]

/-- A polynomial has no value just if one of its variables has none; cancelled monomials do not count, and a false
factor excuses no other. -/
theorem eval?_eq_none_iff {f : Var → Option Bool} {p : Polynomial} : p.eval? f = none ↔ ∃ v ∈ p.vars, f v = none := by
  rw [eval?, Option.map_eq_none_iff, mapM_eq_none_iff]
  constructor
  · rintro ⟨m, hm, hnone⟩
    obtain ⟨v, hv, hfree⟩ := Monomial.eval?_eq_none_iff.1 hnone
    exact ⟨v, mem_vars.2 ⟨m, hm, hv⟩, hfree⟩
  · rintro ⟨v, hv, hfree⟩
    obtain ⟨m, hm, hv⟩ := mem_vars.1 hv
    exact ⟨m, hm, Monomial.eval?_eq_none_iff.2 ⟨v, hv, hfree⟩⟩

/-- Whether a total assignment gives the bound variables their values. Nothing is said about the others. -/
def Extends (a : Var → Bool) (f : Var → Option Bool) : Prop := ∀ v b, f v = some b → a v = b

/-- A value under a partial assignment is the value under every total assignment that extends it, so that it does not
depend on the variables that are not bound. -/
theorem eval_eq_of_eval? {f : Var → Option Bool} {a : Var → Bool} {p : Polynomial} {b : Bool}
    (hb : p.eval? f = some b) (ha : Extends a f) : p.eval a = b := by
  have hbound : ∀ v ∈ p.vars, f v = some (a v) := by
    intro v hv
    cases hfv : f v with
    | none =>
      rw [eval?_eq_none_iff.2 ⟨v, hv, hfv⟩] at hb
      cases hb
    | some c => rw [ha v c hfv]
  rw [eval?_eq_some hbound] at hb
  exact Option.some.inj hb

theorem mem_of_mem_sum {ms : List Monomial} {m : Monomial} (h : m ∈ (sum ms).monomials) : m ∈ ms :=
  (OrderedSet.mem_or_mem_of_mem_toggleAll h).resolve_right (OrderedSet.not_mem_empty m)

theorem mem_vars_sum {ms : List Monomial} {v : Var} (h : v ∈ (sum ms).vars) : ∃ m ∈ ms, v ∈ m.vars := by
  obtain ⟨m, hm, hv⟩ := mem_vars.1 h
  exact ⟨m, mem_of_mem_sum hm, hv⟩

@[simp] theorem mem_vars_ofMonomial {m : Monomial} {v : Var} : v ∈ (ofMonomial m).vars ↔ v ∈ m.vars := by
  rw [mem_vars]
  constructor
  · rintro ⟨n, hn, hv⟩
    obtain rfl : n = m := OrderedSet.mem_singleton.1 hn
    exact hv
  · intro hv
    exact ⟨m, OrderedSet.mem_singleton.2 rfl, hv⟩

@[simp] theorem mem_vars_ofVar {v x : Var} : x ∈ (ofVar v).vars ↔ x = v := by
  rw [ofVar, mem_vars_ofMonomial, Monomial.mem_vars_ofVar]

@[simp] theorem not_mem_vars_constant {b : Bool} {v : Var} : v ∉ (constant b).vars := by
  intro hv
  obtain ⟨m, hm, hv⟩ := mem_vars.1 hv
  cases b with
  | false => exact OrderedSet.not_mem_empty m hm
  | true =>
    obtain rfl : m = Monomial.one := OrderedSet.mem_singleton.1 hm
    exact OrderedSet.not_mem_empty v hv

theorem mem_vars_add {p q : Polynomial} {v : Var} (h : v ∈ (p + q).vars) : v ∈ p.vars ∨ v ∈ q.vars := by
  obtain ⟨m, hm, hv⟩ := mem_vars.1 h
  rcases OrderedSet.mem_or_mem_of_mem_toggleAll hm with hp | hq
  · exact .inl (mem_vars.2 ⟨m, hp, hv⟩)
  · exact .inr (mem_vars.2 ⟨m, hq, hv⟩)

/-- Fixing a variable takes it out and brings no other in. Further variables may disappear because monomials
cancel. -/
theorem mem_vars_assign {p : Polynomial} {v x : Var} {b : Bool} (h : x ∈ (p.assign v b).vars) :
    x ∈ p.vars ∧ x ≠ v := by
  obtain ⟨n, hn, hx⟩ := mem_vars_sum h
  obtain ⟨m, hm, hmn⟩ := List.mem_filterMap.1 hn
  cases hc : m.contains v with
  | false =>
    obtain rfl : m = n := by simpa [hc] using hmn
    refine ⟨mem_vars.2 ⟨m, hm, hx⟩, ?_⟩
    rintro rfl
    rw [Monomial.contains, decide_eq_true hx] at hc
    cases hc
  | true =>
    cases b with
    | false => simp [hc] at hmn
    | true =>
      obtain rfl : m.without v = n := by simpa [hc] using hmn
      obtain ⟨hx, hne⟩ := Monomial.mem_vars_without.1 hx
      exact ⟨mem_vars.2 ⟨m, hm, hx⟩, hne⟩

/-- Substituting takes the variable out, unless it occurs in what replaces it. -/
theorem mem_vars_substitute {p r : Polynomial} {v x : Var} (h : x ∈ (p.substitute v r).vars) :
    (x ∈ p.vars ∧ x ≠ v) ∨ x ∈ r.vars := by
  obtain ⟨n, hn, hx⟩ := mem_vars_sum h
  obtain ⟨m, hm, hmn⟩ := List.mem_flatMap.1 hn
  cases hc : m.contains v with
  | false =>
    obtain rfl : n = m := by simpa [hc] using hmn
    refine .inl ⟨mem_vars.2 ⟨n, hm, hx⟩, ?_⟩
    rintro rfl
    rw [Monomial.contains, decide_eq_true hx] at hc
    cases hc
  | true =>
    rw [hc, if_pos rfl] at hmn
    obtain ⟨t, ht, rfl⟩ := List.mem_map.1 hmn
    rcases Monomial.mem_vars_mul.1 hx with hx | hx
    · obtain ⟨hx, hne⟩ := Monomial.mem_vars_without.1 hx
      exact .inl ⟨mem_vars.2 ⟨m, hm, hx⟩, hne⟩
    · exact .inr (mem_vars.2 ⟨t, ht, hx⟩)

theorem eq_zero_of_isZero {p : Polynomial} (h : p.isZero = true) : p = zero := by
  obtain ⟨⟨l, hl⟩⟩ := p
  cases l with
  | nil => rfl
  | cons m l => cases h

theorem eq_one_of_isOne {p : Polynomial} (h : p.isOne = true) : p = one := by
  rw [isOne, Bool.and_eq_true, beq_iff_eq] at h
  obtain ⟨hsize, hone⟩ := h
  have hone : Monomial.one ∈ p.monomialList := of_decide_eq_true hone
  obtain ⟨m, hm⟩ := List.length_eq_one_iff.1 hsize
  have hlist : p.monomialList = [Monomial.one] := by
    rw [monomialList, hm] at hone ⊢
    rw [List.mem_singleton.1 hone]
  obtain ⟨s⟩ := p
  exact congrArg Polynomial.mk (OrderedSet.ext_toList hlist)

theorem ne_zero_of_isZero {p : Polynomial} (h : ¬p.isZero = true) : p ≠ zero := by
  rintro rfl
  exact h rfl

theorem ne_one_of_isOne {p : Polynomial} (h : ¬p.isOne = true) : p ≠ one := by
  rintro rfl
  exact h rfl

theorem nodup_monomialList (p : Polynomial) : p.monomialList.Nodup := p.monomials.nodup_toList

/-- The constant counts once beside the other monomials, so that a polynomial is the sum of its terms and its
constant. -/
theorem eval_eq_terms (a : Var → Bool) (p : Polynomial) :
    p.eval a = (p.constantTerm ^^ parity (p.terms.map (Monomial.eval a))) := by
  rw [eval, parity_filter (Monomial.eval a) Monomial.isOne, terms]
  congr 1
  have hfilter : p.monomialList.filter Monomial.isOne = p.monomialList.filter (· == Monomial.one) := by
    apply List.filter_congr
    intro m _
    rw [Bool.eq_iff_iff, beq_iff_eq, Monomial.isOne_iff]
  rw [hfilter, List.filter_beq, p.nodup_monomialList.count, constantTerm]
  by_cases hone : Monomial.one ∈ p.monomialList
  · rw [if_pos hone, decide_eq_true (mem_monomialList.1 hone)]
    rfl
  · rw [if_neg hone, decide_eq_false (mt mem_monomialList.2 hone)]
    rfl

/-- The operations compute what they denote. A sum has the sum of the values and a multiple by a monomial the product;
fixing a variable and substituting for it have the value at the changed assignment, also when the variable occurs in
what replaces it. Neither leaves the variable behind, unless what replaces it brings it back. Under a partial
assignment there is a value just if every variable is bound, and it is the one under every extension. -/
theorem operations_denote (p q r : Polynomial) (m : Monomial) (v : Var) (b : Bool) (a : Var → Bool)
    (f : Var → Option Bool) :
    (p + q).eval a = (p.eval a ^^ q.eval a) ∧
    (p.mulMonomial m).eval a = (p.eval a && m.eval a) ∧
    m.eval? (fun x => some (a x)) = some (m.eval a) ∧
    (p.assign v b).eval a = p.eval (Function.update a v b) ∧
    (p.substitute v r).eval a = p.eval (Function.update a v (r.eval a)) ∧
    v ∉ (p.assign v b).vars ∧
    (v ∈ (p.substitute v r).vars → v ∈ r.vars) ∧
    (p.eval? f = none ↔ ∃ x ∈ p.vars, f x = none) ∧
    ∀ c, p.eval? f = some c → Extends a f → p.eval a = c := by
  refine ⟨eval_add a p q, eval_mulMonomial a p m, Monomial.eval?_eq_some fun x _ => rfl, eval_assign a p v b,
    eval_substitute a p v r, ?_, ?_, eval?_eq_none_iff, fun c => eval_eq_of_eval?⟩
  · intro hv
    exact (mem_vars_assign hv).2 rfl
  · intro hv
    rcases mem_vars_substitute hv with ⟨-, hne⟩ | hr
    · exact absurd rfl hne
    · exact hr

/-- `x1*x2 + x2 + x3` with `x1*x2 + x2 + 1` in the place of `x2`, and its value where just three variables are
bound. -/
theorem operations_denote_overlapping :
    let p : Polynomial := sum [.ofVars [1, 2], .ofVar 2, .ofVar 3]
    let r : Polynomial := sum [.ofVars [1, 2], .ofVar 2, .one]
    let f : Var → Option Bool := fun v => if v < 4 then some (v == 2) else none
    let a : Var → Bool := fun v => v == 2
    2 ∈ (p.substitute 2 r).vars ∧ 2 ∈ r.vars ∧
    (p.substitute 2 r).eval a = p.eval (Function.update a 2 (r.eval a)) ∧
    p.eval? f = some true ∧ Extends a f ∧ p.eval a = true := by
  intro p r f a
  obtain ⟨-, -, -, -, hsubstitute, -, hmentions, -, hvalue⟩ := operations_denote p p r .one 2 false a f
  have hmem : 2 ∈ (p.substitute 2 r).vars := by decide
  have hbound : p.eval? f = some true := by decide
  have hextends : Extends a f := by
    intro v b hv
    by_cases hlt : v < 4
    · exact Option.some.inj ((if_pos hlt).symm.trans hv)
    · cases (if_neg hlt).symm.trans hv
  exact ⟨hmem, hmentions hmem, hsubstitute, hbound, hextends, hvalue true hbound hextends⟩

end Polynomial

end BoolPoly
