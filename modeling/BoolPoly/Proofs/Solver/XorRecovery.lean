import BoolPoly.Solver.XorRecovery
import BoolPoly.Proofs.Encoding.Sum
import BoolPoly.Proofs.Polynomial.Evaluation
import BoolPoly.Proofs.Solver.Contract
import Mathlib.Data.List.Sort

open Std

namespace BoolPoly

theorem OrderedSet.perm_ofList {vs : List Var} (hvs : vs.Nodup) : (OrderedSet.ofList vs).toList.Perm vs := by
  rw [List.perm_ext_iff_of_nodup (OrderedSet.nodup_toList _) hvs]
  intro v
  rw [OrderedSet.mem_toList, OrderedSet.mem_ofList]

/-- The sum over a set is the sum over any list of its members without repetitions, in whatever order. -/
theorem OrderedSet.parity_ofList {vs : List Var} (hvs : vs.Nodup) (a : Var → Bool) :
    parity ((OrderedSet.ofList vs).toList.map a) = parity (vs.map a) :=
  parity_perm ((perm_ofList hvs).map a)

/-- Whether a relation is the sum of two others: it is over the variables that just one of them has, and its
right-hand side is the sum of theirs. -/
structure XorRelation.IsSum (r q sum : XorRelation) : Prop where
  ascending : sum.vars.Pairwise (· < ·)
  mem_vars : ∀ v, v ∈ sum.vars ↔ (v ∈ r.vars ∧ v ∉ q.vars) ∨ (v ∉ r.vars ∧ v ∈ q.vars)
  rhs : sum.rhs = (r.rhs ^^ q.rhs)

namespace XorRelation.IsSum

variable {r q sum other : XorRelation}

theorem symm (h : IsSum r q sum) : IsSum q r sum where
  ascending := h.ascending
  mem_vars v := by rw [h.mem_vars, or_comm, and_comm, and_comm (a := v ∈ r.vars)]
  rhs := by rw [h.rhs, Bool.xor_comm]

/-- There is only one sum. -/
theorem eq (h : IsSum r q sum) (h' : IsSum r q other) : sum = other := by
  have hvars : sum.vars = other.vars :=
    h.ascending.eq_of_mem_iff h'.ascending fun v => by rw [h.mem_vars, h'.mem_vars]
  have hrhs : sum.rhs = other.rhs := h.rhs.trans h'.rhs.symm
  obtain ⟨vs, b⟩ := sum
  obtain ⟨ws, c⟩ := other
  rw [show vs = ws from hvars, show b = c from hrhs]

theorem of_symmDiff (r q : XorRelation) :
    IsSum r q ⟨(OrderedSet.symmDiff (.ofList r.vars) (.ofList q.vars)).toList, r.rhs ^^ q.rhs⟩ where
  ascending := OrderedSet.pairwise_lt _
  mem_vars v := by rw [OrderedSet.mem_toList, OrderedSet.mem_symmDiff, OrderedSet.mem_ofList, OrderedSet.mem_ofList]
  rhs := rfl

/-- Where both relations hold, their sum does: what they have in common cancels. -/
theorem holds {a : Var → Bool} (h : IsSum r q sum) (hrvars : r.vars.Nodup) (hqvars : q.vars.Nodup)
    (hr : r.Holds a) (hq : q.Holds a) : sum.Holds a := by
  rw [h.eq (of_symmDiff r q)]
  rw [XorRelation.Holds] at hr hq ⊢
  rw [OrderedSet.symmDiff, OrderedSet.parity_toggleAll, OrderedSet.parity_ofList hrvars,
    OrderedSet.parity_ofList hqvars, hr, hq]

end XorRelation.IsSum

namespace XorRecovery

variable {f : Cnf} {a : Var → Bool} {r : XorRelation}

theorem holds_sorted (c : Clause) : Clause.holds a (sorted c) = Clause.holds a c := by
  rw [Bool.eq_iff_iff, Clause.holds, Clause.holds, List.any_eq_true, List.any_eq_true]
  simp only [sorted, List.mem_mergeSort]

/-- The eligible clauses are the ordered forms of the clauses with two to six distinct variables. -/
theorem mem_eligible {d : Clause} : d ∈ eligible f ↔
    (∃ c ∈ f, sorted c = d) ∧ (2 ≤ d.length ∧ d.length ≤ maxLength) ∧ (d.map Literal.var).Nodup := by
  rw [eligible, List.mem_filter, List.mem_map, Bool.and_eq_true, Bool.and_eq_true, decide_eq_true_iff,
    decide_eq_true_iff, decide_eq_true_iff]

theorem holds_of_mem_eligible (hf : f.holds a = true) {c : Clause} (hc : c ∈ eligible f) :
    Clause.holds a c = true := by
  obtain ⟨⟨d, hd, rfl⟩, -⟩ := mem_eligible.1 hc
  rw [holds_sorted]
  exact Cnf.holds_iff.1 hf d hd

theorem mem_supports {clauses : List Clause} {vars : List Var} :
    vars ∈ supports clauses ↔ ∃ c ∈ clauses, c.map Literal.var = vars := by
  rw [supports, OrderedSet.mem_toList, OrderedSet.mem_ofList, List.mem_map]

/-- A relation is recovered if its variables are those of an eligible clause and all of its clauses are eligible:
those that forbid the wrong parity have all to be there. -/
theorem mem_relations : r ∈ relations f ↔
    r.vars ∈ supports (eligible f) ∧ ∀ c ∈ parityClauses r.vars r.rhs, c ∈ eligible f := by
  rw [relations, List.mem_flatMap]
  constructor
  · rintro ⟨vs, hvs, hr⟩
    obtain ⟨hmem, hpresent⟩ := List.mem_filter.1 hr
    have hvars : r.vars = vs := by
      rcases List.mem_cons.1 hmem with rfl | hmem
      · rfl
      · rw [List.mem_singleton.1 hmem]
    refine ⟨hvars ▸ hvs, fun c hc => ?_⟩
    have hown := List.all_eq_true.1 hpresent c hc
    rw [List.contains_iff_mem] at hown
    exact (List.mem_filter.1 hown).1
  · rintro ⟨hvars, hclauses⟩
    refine ⟨r.vars, hvars, List.mem_filter.2 ⟨?_, List.all_eq_true.2 fun c hc => ?_⟩⟩
    · obtain ⟨vars, _ | _⟩ := r
      · exact List.mem_cons_of_mem _ List.mem_cons_self
      · exact List.mem_cons_self
    · obtain ⟨bits, hlength, -, hforbid⟩ := mem_parityClauses.1 hc
      have hvar : c.map Literal.var = r.vars := hforbid ▸ map_var_forbidBits hlength
      exact List.contains_iff_mem.2 (List.mem_filter.2 ⟨hclauses c hc, beq_iff_eq.2 hvar⟩)

theorem nodup_of_mem_relations (hr : r ∈ relations f) : r.vars.Nodup := by
  obtain ⟨c, hc, hvars⟩ := mem_supports.1 (mem_relations.1 hr).1
  rw [← hvars]
  exact (mem_eligible.1 hc).2.2

theorem holds_of_mem_relations (hf : f.holds a = true) (hr : r ∈ relations f) : r.Holds a := by
  rw [XorRelation.Holds, ← holds_parityClauses, Cnf.holds_iff]
  intro c hc
  exact holds_of_mem_eligible hf ((mem_relations.1 hr).2 c hc)

theorem nodup_relations (f : Cnf) : (relations f).Nodup := by
  refine List.nodup_flatMap.2 ⟨fun vs _ => List.Nodup.filter _ (by simp), ?_⟩
  refine (OrderedSet.nodup_toList _).imp fun {vs ws} hne => ?_
  have hvars : ∀ {us : List Var} {own : List Clause} {r : XorRelation},
      r ∈ [⟨us, true⟩, ⟨us, false⟩].filter (isPresent own) → r.vars = us := by
    intro us own r hr
    rcases List.mem_cons.1 (List.mem_filter.1 hr).1 with rfl | hr
    · rfl
    · rw [List.mem_singleton.1 hr]
  exact fun r hr hr' => hne ((hvars hr).symm.trans (hvars hr'))

/-- Of two distinct members of a list, one comes first, so that each pair is looked at once. -/
theorem mem_pairs {α : Type} {l : List α} (hl : l.Nodup) {x y : α} :
    (x, y) ∈ pairs l ∨ (y, x) ∈ pairs l ↔ x ∈ l ∧ y ∈ l ∧ x ≠ y := by
  induction l with
  | nil => simp [pairs]
  | cons b l ih =>
    obtain ⟨hb, hl⟩ := List.nodup_cons.1 hl
    have ih := ih hl
    have hcons : ∀ {u v : α}, (u, v) ∈ pairs (b :: l) ↔ (b = u ∧ v ∈ l) ∨ (u, v) ∈ pairs l := by
      intro u v
      simp [pairs, and_comm]
    rw [hcons, hcons, List.mem_cons, List.mem_cons]
    grind

theorem combine?_eq_some_iff {q sum : XorRelation} : combine? r q = some sum ↔
    (∃ v ∈ r.vars, v ∈ q.vars) ∧ sum.vars ≠ [] ∧ r.IsSum q sum := by
  have hsum := XorRelation.IsSum.of_symmDiff r q
  have hshare : (r.vars.any q.vars.contains = true) ↔ ∃ v ∈ r.vars, v ∈ q.vars := by
    simp only [List.any_eq_true, List.contains_iff_mem]
  rw [combine?, ← hshare]
  constructor
  · intro h
    split at h
    · next hany =>
      dsimp only at h
      split at h
      · cases h
      · next hne =>
        cases h
        exact ⟨hany, fun hnil => hne (List.isEmpty_iff.2 hnil), hsum⟩
    · cases h
  · rintro ⟨hany, hne, h⟩
    obtain rfl := hsum.eq h
    rw [if_pos hany]
    exact if_neg fun hempty => hne (List.isEmpty_iff.1 hempty)

/-- The combinations are the sums of two distinct relations that share a variable and do not cancel. -/
theorem mem_combinations {rs : List XorRelation} (hrs : rs.Nodup) {sum : XorRelation} : sum ∈ combinations rs ↔
    ∃ r ∈ rs, ∃ q ∈ rs, r ≠ q ∧ (∃ v ∈ r.vars, v ∈ q.vars) ∧ sum.vars ≠ [] ∧ r.IsSum q sum := by
  rw [combinations, OrderedSet.mem_toList, OrderedSet.mem_ofList, List.mem_filterMap]
  constructor
  · rintro ⟨⟨r, q⟩, hpair, hsum⟩
    obtain ⟨hr, hq, hne⟩ := (mem_pairs hrs).1 (.inl hpair)
    exact ⟨r, hr, q, hq, hne, combine?_eq_some_iff.1 hsum⟩
  · rintro ⟨r, hr, q, hq, hne, ⟨v, hvr, hvq⟩, hvars, hsum⟩
    -- only one of the two orders is listed
    rcases (mem_pairs hrs).2 ⟨hr, hq, hne⟩ with hpair | hpair
    · exact ⟨(r, q), hpair, combine?_eq_some_iff.2 ⟨⟨v, hvr, hvq⟩, hvars, hsum⟩⟩
    · exact ⟨(q, r), hpair, combine?_eq_some_iff.2 ⟨⟨v, hvq, hvr⟩, hvars, hsum.symm⟩⟩

theorem holds_of_mem_combinations (hf : f.holds a = true) (hr : r ∈ combinations (relations f)) : r.Holds a := by
  obtain ⟨p, hp, q, hq, -, -, -, hsum⟩ := (mem_combinations (nodup_relations f)).1 hr
  exact hsum.holds (nodup_of_mem_relations hp) (nodup_of_mem_relations hq) (holds_of_mem_relations hf hp)
    (holds_of_mem_relations hf hq)

end XorRecovery

end BoolPoly
