import BoolPoly.Polynomial.Text
import BoolPoly.Proofs.Polynomial.Evaluation
import Mathlib.Data.List.Perm.Subperm
import Mathlib.Order.WellFounded

open Std

namespace BoolPoly

namespace Monomial

theorem ext_vars {m n : Monomial} (h : ∀ v, v ∈ m.vars ↔ v ∈ n.vars) : m = n :=
  congrArg Monomial.mk (OrderedSet.ext_mem h)

/-- A divisor of a monomial that has at least its degree is that monomial. So where just the factors of a monomial of
least degree are one, no other monomial is. -/
theorem eq_of_subset_of_degree_le {m n : Monomial} (hsub : ∀ v ∈ n.vars, v ∈ m.vars) (hdegree : m.degree ≤ n.degree) :
    n = m := by
  have hperm : n.varList.Perm m.varList :=
    (List.subperm_of_subset n.vars.nodup_toList hsub).perm_of_length_le hdegree
  exact ext_vars fun v => hperm.mem_iff

theorem pairwise_varList (m : Monomial) : m.varList.Pairwise (· < ·) :=
  m.vars.pairwise_lt

end Monomial

namespace Polynomial

/-- A sum has the monomials of just one of its parts: those of both cancel. -/
theorem mem_add {p q : Polynomial} {m : Monomial} : m ∈ (p + q).monomials ↔
    (m ∈ p.monomials ∧ m ∉ q.monomials) ∨ (m ∉ p.monomials ∧ m ∈ q.monomials) :=
  OrderedSet.mem_symmDiff

theorem eq_of_add_eq_zero {p q : Polynomial} (h : p + q = zero) : p = q := by
  apply congrArg Polynomial.mk (OrderedSet.ext_mem fun m => ?_)
  have hm : m ∉ (p + q).monomials := by
    rw [h]
    exact OrderedSet.not_mem_empty m
  rw [mem_add] at hm
  tauto

/-- A polynomial that is not zero as a value is not zero everywhere: it is one where just the factors of one of its
monomials of least degree are one. -/
theorem exists_eval_eq_true {p : Polynomial} (hp : p ≠ zero) : ∃ a, p.eval a = true := by
  have hne : p.monomialList ≠ [] := fun h => hp (congrArg Polynomial.mk (OrderedSet.ext_toList h))
  obtain ⟨m, hm, hleast⟩ := (measure Monomial.degree).wf.has_min {m | m ∈ p.monomialList}
    (List.exists_mem_of_ne_nil _ hne)
  let a : Var → Bool := fun v => decide (v ∈ m.vars)
  have hself : m.eval a = true := Monomial.eval_eq_true.2 fun v hv => decide_eq_true hv
  have hothers : ∀ b ∈ (p.monomialList.erase m).map (Monomial.eval a), b = false := by
    rw [List.forall_mem_map]
    intro n hn
    obtain ⟨hnm, hn⟩ := p.nodup_monomialList.mem_erase_iff.1 hn
    by_contra hone
    rw [Bool.not_eq_false, Monomial.eval_eq_true] at hone
    have hdivides : ∀ v ∈ n.vars, v ∈ m.vars := fun v hv => of_decide_eq_true (hone v hv)
    exact hnm (Monomial.eq_of_subset_of_degree_le hdivides (Nat.not_lt.1 (hleast n hn)))
  refine ⟨a, ?_⟩
  rw [eval, parity_perm ((List.perm_cons_erase hm).map _), List.map_cons, parity_cons, hself, parity_eq_false hothers]
  rfl

/-- Polynomials with the same values are the same: their sum is zero everywhere, so it has no monomial, and the two
parts have the same ones. -/
theorem eq_of_eval_eq {p q : Polynomial} (h : ∀ a, p.eval a = q.eval a) : p = q := by
  apply eq_of_add_eq_zero
  by_contra hsum
  obtain ⟨a, ha⟩ := exists_eval_eq_true hsum
  rw [eval_add, h, Bool.xor_self] at ha
  cases ha

/-- A polynomial depends on every variable that occurs in it. Otherwise the polynomial with this variable fixed would
have the same values, without being the same. -/
theorem exists_eval_update_ne {p : Polynomial} {v : Var} (hv : v ∈ p.vars) :
    ∃ a, p.eval (Function.update a v false) ≠ p.eval a := by
  by_contra hnone
  have hfixed : p.assign v false = p := by
    refine eq_of_eval_eq fun a => ?_
    rw [eval_assign]
    exact not_not.1 (not_exists.1 hnone a)
  exact (mem_vars_assign (hfixed.symm ▸ hv)).2 rfl

theorem isZero_iff {p : Polynomial} : p.isZero = true ↔ ∀ a, p.eval a = false := by
  constructor
  · intro h a
    rw [eq_zero_of_isZero h, eval_zero]
  · intro h
    rw [eq_of_eval_eq (q := zero) h]
    rfl

theorem isOne_iff {p : Polynomial} : p.isOne = true ↔ ∀ a, p.eval a = true := by
  constructor
  · intro h a
    rw [eq_one_of_isOne h, eval_one]
  · intro h
    rw [eq_of_eval_eq (q := one) fun a => (h a).trans (eval_one a).symm]
    rfl

end Polynomial

/-- The ways to put a monomial together. -/
inductive Monomial.Construction where
  | one
  | ofVar (v : Var)
  | ofVars (vs : List Var)
  | mul (c d : Monomial.Construction)
  | without (c : Monomial.Construction) (v : Var)

namespace Monomial.Construction

/-- The monomial that a construction leads to, by the operations that run. -/
def build : Construction → Monomial
  | one => .one
  | ofVar v => .ofVar v
  | ofVars vs => .ofVars vs
  | mul c d => c.build * d.build
  | without c v => c.build.without v

/-- What a construction denotes. -/
def value (a : Var → Bool) : Construction → Bool
  | one => true
  | ofVar v => a v
  | ofVars vs => vs.all a
  | mul c d => c.value a && d.value a
  | without c v => c.value (Function.update a v true)

theorem eval_build (a : Var → Bool) (c : Construction) : c.build.eval a = c.value a := by
  induction c generalizing a with
  | one => exact eval_one a
  | ofVar v => exact eval_ofVar a v
  | ofVars vs => exact Monomial.eval_ofVars a vs
  | mul c d hc hd => rw [build, eval_mul, hc, hd, value]
  | without c v hc => rw [build, eval_without, hc, value]

end Monomial.Construction

namespace Polynomial

/-- The ways to put a polynomial together: by reading a text that holds one, from parts, and by the operations on
polynomials. What is proved for these holds of every polynomial that can be built. -/
inductive Construction where
  | read (s : String) (p : Polynomial) (h : ofText s = .ok p)
  | constant (b : Bool)
  | ofVar (v : Var)
  | ofMonomial (m : Monomial.Construction)
  | sum (ms : List Monomial.Construction)
  | add (c d : Construction)
  | addMonomial (c : Construction) (m : Monomial.Construction)
  | mulMonomial (c : Construction) (m : Monomial.Construction)
  | assign (c : Construction) (v : Var) (b : Bool)
  | substitute (c : Construction) (v : Var) (r : Construction)

namespace Construction

/-- The polynomial that a construction leads to, by the operations that run. -/
def build : Construction → Polynomial
  | read _ p _ => p
  | constant b => .constant b
  | ofVar v => .ofVar v
  | ofMonomial m => .ofMonomial m.build
  | sum ms => .sum (ms.map Monomial.Construction.build)
  | add c d => c.build + d.build
  | addMonomial c m => c.build.addMonomial m.build
  | mulMonomial c m => c.build.mulMonomial m.build
  | assign c v b => c.build.assign v b
  | substitute c v r => c.build.substitute v r.build

/-- What a construction denotes: its value under a total assignment, without a look at how polynomials are stored. -/
def value (a : Var → Bool) : Construction → Bool
  | read _ p _ => p.eval a
  | constant b => b
  | ofVar v => a v
  | ofMonomial m => m.value a
  | sum ms => parity (ms.map (Monomial.Construction.value a))
  | add c d => c.value a ^^ d.value a
  | addMonomial c m => m.value a ^^ c.value a
  | mulMonomial c m => c.value a && m.value a
  | assign c v b => c.value (Function.update a v b)
  | substitute c v r => c.value (Function.update a v (r.value a))

/-- Every operation computes what it denotes. -/
theorem eval_build (a : Var → Bool) (c : Construction) : c.build.eval a = c.value a := by
  induction c generalizing a with
  | read s p h => rfl
  | constant b => exact eval_constant a b
  | ofVar v => exact eval_ofVar a v
  | ofMonomial m => rw [build, eval_ofMonomial, Monomial.Construction.eval_build, value]
  | sum ms =>
    rw [build, eval_sum, List.map_map, value]
    exact congrArg parity (List.map_congr_left fun m _ => m.eval_build a)
  | add c d hc hd => rw [build, eval_add, hc, hd, value]
  | addMonomial c m hc => rw [build, eval_addMonomial, hc, Monomial.Construction.eval_build, value]
  | mulMonomial c m hc => rw [build, eval_mulMonomial, hc, Monomial.Construction.eval_build, value]
  | assign c v b hc => rw [build, eval_assign, hc, value]
  | substitute c v r hc hr => rw [build, eval_substitute, hc, hr, value]

/-- Polynomials are canonical, however they are put together. The variables of every monomial ascend, and a polynomial
has under every total assignment the value that its construction denotes. Two polynomials are the same stored value
exactly if all these values agree; so only the zero polynomial vanishes everywhere, and only the constant one is one
everywhere. -/
theorem build_canonical (c d : Construction) :
    (∀ m ∈ c.build.monomials, m.varList.Pairwise (· < ·)) ∧
    (∀ a : Var → Bool, c.build.eval? (fun v => some (a v)) = some (c.value a)) ∧
    (c.build = d.build ↔
      ∀ a : Var → Bool, c.build.eval? (fun v => some (a v)) = d.build.eval? (fun v => some (a v))) ∧
    (c.build.isZero = true ↔ ∀ a : Var → Bool, c.build.eval? (fun v => some (a v)) = some false) ∧
    (c.build.isOne = true ↔ ∀ a : Var → Bool, c.build.eval? (fun v => some (a v)) = some true) := by
  have htotal : ∀ (p : Polynomial) (a : Var → Bool), p.eval? (fun v => some (a v)) = some (p.eval a) :=
    fun p a => eval?_eq_some fun v _ => rfl
  simp only [htotal, Option.some.injEq]
  exact ⟨fun m _ => m.pairwise_varList, fun a => c.eval_build a, ⟨fun h a => congrArg (eval a) h, eq_of_eval_eq⟩,
    isZero_iff, isOne_iff⟩

/-- With `x1 + 1` in the place of `x2` the products of `x1*x2` and the two monomials of `x2` leave `x1 + 1` only. -/
example : (substitute (sum [.ofVars [2, 1, 1], .ofVar 2, .ofVar 3]) 2 (add (ofVar 1) (constant true))).build =
    (addMonomial (sum [.ofVar 3, .one]) (.ofVar 1)).build := by decide

end Construction

end Polynomial

end BoolPoly
