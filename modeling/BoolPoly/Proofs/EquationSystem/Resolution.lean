import BoolPoly.Proofs.EquationSystem.Facts
import BoolPoly.Proofs.Polynomial.Canonical

open Std

namespace BoolPoly.EquationSystem

variable {s : EquationSystem}

theorem eval_resolveVar {a : Var → Bool} (h : Obeys a s) (p : Polynomial) (v : Var) :
    (s.resolveVar p v).eval a = p.eval a := by
  unfold resolveVar
  split
  · next b hb => exact Polynomial.eval_assign_of_eq (h.value hb) p
  · split
    · next r hr =>
      apply Polynomial.eval_substitute_of_eq
      rw [Replacement.eval_polynomial, h.replacement hr]
    · rfl

/-- Under the facts a polynomial and its resolved form have the same value, so that an equation may be replaced by the
latter. -/
theorem eval_resolve {a : Var → Bool} (h : Obeys a s) (p : Polynomial) : (s.resolve p).eval a = p.eval a := by
  rw [resolve]
  generalize p.vars.toList = vs
  induction vs generalizing p with
  | nil => rfl
  | cons v vs ih => rw [List.foldl_cons, ih, eval_resolveVar h]

theorem mem_vars_resolveVar {p : Polynomial} {v x : Var} (h : x ∈ (s.resolveVar p v).vars) :
    (x ∈ p.vars ∧ (x = v → s.Free v)) ∨ ∃ r, s.replacement? v = some r ∧ x = r.root := by
  unfold resolveVar at h
  split at h
  · next b hb =>
    obtain ⟨hx, hne⟩ := Polynomial.mem_vars_assign h
    exact .inl ⟨hx, fun heq => absurd heq hne⟩
  · next hnone =>
    split at h
    · next r hr =>
      rcases Polynomial.mem_vars_substitute h with ⟨hx, hne⟩ | hx
      · exact .inl ⟨hx, fun heq => absurd heq hne⟩
      · exact .inr ⟨r, hr, Replacement.eq_root_of_mem_vars hx⟩
    · next hnone' => exact .inl ⟨h, fun _ => ⟨hnone, hnone'⟩⟩

private theorem free_of_mem_vars_foldl (hs : s.FactsValid) {vs : List Var} {p : Polynomial}
    (hp : ∀ x ∈ p.vars, s.Free x ∨ x ∈ vs) {x : Var} (hx : x ∈ (vs.foldl s.resolveVar p).vars) :
    s.Free x := by
  induction vs generalizing p with
  | nil => exact (hp x hx).resolve_right List.not_mem_nil
  | cons v vs ih =>
    refine ih (p := s.resolveVar p v) ?_ hx
    intro y hy
    rcases mem_vars_resolveVar hy with ⟨hy, hv⟩ | ⟨r, hr, rfl⟩
    · rcases hp y hy with hfree | hmem
      · exact .inl hfree
      · rcases List.mem_cons.1 hmem with rfl | hmem
        · exact .inl (hv rfl)
        · exact .inr hmem
    · exact .inl (hs.root_free hr)

/-- A resolved polynomial is about free variables. One round of substitution is enough, because the root of a
replacement is free. -/
theorem free_of_mem_vars_resolve (hs : s.FactsValid) {p : Polynomial} {x : Var}
    (hx : x ∈ (s.resolve p).vars) : s.Free x :=
  free_of_mem_vars_foldl hs (fun _ hy => .inr hy) hx

/-- Resolving leads to smaller variables only, so that a bound on the variables of a polynomial is one on those of its
resolved form. -/
theorem lt_of_mem_vars_resolve (hs : s.FactsValid) {p : Polynomial} {n : Nat} (hp : ∀ v ∈ p.vars, v < n)
    {x : Var} (hx : x ∈ (s.resolve p).vars) : x < n := by
  have hvars : ∀ v ∈ p.vars.toList, v < n := hp
  rw [resolve] at hx
  generalize p.vars.toList = vs at hvars hx
  induction vs generalizing p with
  | nil => exact hp x hx
  | cons v vs ih =>
    obtain ⟨hv, hvs⟩ := List.forall_mem_cons.1 hvars
    refine ih (p := s.resolveVar p v) ?_ hvs hx
    intro y hy
    rcases mem_vars_resolveVar hy with ⟨hy, -⟩ | ⟨r, hr, rfl⟩
    · exact hp y hy
    · exact Nat.lt_trans (hs.root_lt hr) hv

theorem resolveVar_of_free {v : Var} (h : s.Free v) (p : Polynomial) : s.resolveVar p v = p := by
  unfold resolveVar
  rw [h.1, h.2]

/-- A polynomial about free variables is resolved already. -/
theorem resolve_of_free {p : Polynomial} (h : ∀ v ∈ p.vars, s.Free v) : s.resolve p = p := by
  have hvars : ∀ v ∈ p.vars.toList, s.Free v := h
  rw [resolve]
  generalize p.vars.toList = vs at hvars
  induction vs with
  | nil => rfl
  | cons v vs ih =>
    obtain ⟨hv, hvs⟩ := List.forall_mem_cons.1 hvars
    rw [List.foldl_cons, resolveVar_of_free hv, ih hvs]

/-- A fact stated by a resolved polynomial is about free variables, so that no earlier fact is written over. -/
theorem about_free_of_states (hs : s.FactsValid) {p : Polynomial} {fact : Fact}
    (h : fact.States (s.resolve p)) : fact.About s.Free :=
  h.about fun _ hv => free_of_mem_vars_resolve hs hv

/-- The assignment in which every variable follows the recorded facts, and the free ones are left alone. It obeys the
facts, whatever the assignment was. -/
def follow (s : EquationSystem) (a : Var → Bool) (v : Var) : Bool :=
  match s.value? v with
  | some b => b
  | none =>
    match s.replacement? v with
    | some r => a r.root ^^ r.inverted
    | none => a v

theorem follow_of_free {v : Var} (h : s.Free v) (a : Var → Bool) : s.follow a v = a v := by
  rw [follow, h.1, h.2]

theorem obeys_follow (hs : s.FactsValid) (a : Var → Bool) : Obeys (s.follow a) s := by
  constructor
  · intro v b hb
    rw [follow, hb]
  · intro v r hr
    rw [follow_of_free (hs.root_free hr), follow, hs.value_none hr, hr]

/-- The value of a resolved polynomial is that of the polynomial where every variable follows the facts. -/
theorem eval_resolve_eq_follow (hs : s.FactsValid) (p : Polynomial) (a : Var → Bool) :
    (s.resolve p).eval a = p.eval (s.follow a) := by
  rw [← eval_resolve (obeys_follow hs a)]
  exact Polynomial.eval_congr fun v hv => (follow_of_free (free_of_mem_vars_resolve hs hv) a).symm

/-- Polynomials about free variables are the same if they have the same value wherever the facts hold, because every
assignment of the free variables can be made to obey the facts. -/
theorem eq_of_eval_eq_of_obeys (hs : s.FactsValid) {p q : Polynomial} (hp : ∀ v ∈ p.vars, s.Free v)
    (hq : ∀ v ∈ q.vars, s.Free v) (h : ∀ a, Obeys a s → p.eval a = q.eval a) : p = q := by
  apply Polynomial.eq_of_eval_eq
  intro a
  have hfollow : ∀ {r : Polynomial}, (∀ v ∈ r.vars, s.Free v) → r.eval (s.follow a) = r.eval a := fun hr =>
    Polynomial.eval_congr fun v hv => follow_of_free (hr v hv) a
  rw [← hfollow hp, ← hfollow hq, h _ (obeys_follow hs a)]

/-- Resolving gives one form to all polynomials that have the same value wherever the facts hold, and different forms
to all others. So a polynomial is taken as known exactly if the facts imply it. -/
theorem resolve_eq_resolve_iff (hs : s.FactsValid) {p q : Polynomial} :
    s.resolve p = s.resolve q ↔ ∀ a, Obeys a s → p.eval a = q.eval a := by
  constructor
  · intro h a ha
    rw [← eval_resolve ha p, h, eval_resolve ha]
  · intro h
    have hfree := fun r v => free_of_mem_vars_resolve hs (p := r) (x := v)
    apply eq_of_eval_eq_of_obeys hs (hfree p) (hfree q)
    intro a ha
    rw [eval_resolve ha, eval_resolve ha, h a ha]

theorem resolve_constant (b : Bool) : s.resolve (.constant b) = .constant b :=
  resolve_of_free fun _ hv => absurd hv Polynomial.not_mem_vars_constant

theorem resolve_zero : s.resolve .zero = .zero := resolve_constant false

theorem resolve_resolve (hs : s.FactsValid) (p : Polynomial) : s.resolve (s.resolve p) = s.resolve p :=
  resolve_of_free fun _ => free_of_mem_vars_resolve hs

/-- The parts of a sum can be resolved apart: monomials that coincide only then cancel either way. -/
theorem resolve_add (hs : s.FactsValid) (p q : Polynomial) : s.resolve (p + q) = s.resolve p + s.resolve q := by
  apply eq_of_eval_eq_of_obeys hs fun _ => free_of_mem_vars_resolve hs
  · intro v hv
    rcases Polynomial.mem_vars_add hv with hv | hv
    · exact free_of_mem_vars_resolve hs hv
    · exact free_of_mem_vars_resolve hs hv
  · intro a ha
    rw [eval_resolve ha, Polynomial.eval_add, Polynomial.eval_add, eval_resolve ha, eval_resolve ha]

end BoolPoly.EquationSystem
