import BoolPoly.Proofs.Solver.ProbingSolver
import Mathlib.Data.List.GetD
import Mathlib.Data.List.Sort

open Std

namespace BoolPoly

/-- Whether a relation is over two to six variables and each assignment of the wrong parity falsifies a clause over
exactly these variables, with one literal for each. Neither the order of the literals nor other clauses matter. -/
structure XorRelation.RecoveredFrom (f : Cnf) (r : XorRelation) : Prop where
  ascending : r.vars.Pairwise (· < ·)
  two_le_length : 2 ≤ r.vars.length
  length_le_six : r.vars.length ≤ 6
  falsified : ∀ a : Var → Bool, parity (r.vars.map a) ≠ r.rhs →
    ∃ c ∈ f, (c.map Literal.var).Perm r.vars ∧ Clause.holds a c = false

/-- Distinct variables can take any values, so that every assignment of the wrong parity is that of some
assignment. -/
theorem exists_map_eq {vars : List Var} {bits : List Bool} (hvars : vars.Nodup) (hlength : bits.length = vars.length) :
    ∃ a : Var → Bool, vars.map a = bits := by
  refine ⟨fun v => bits.getD (vars.idxOf v) false, List.ext_getElem (by rw [List.length_map, hlength]) ?_⟩
  intro i hi hbits
  rw [List.getElem_map, hvars.idxOf_getElem, List.getD_eq_getElem _ _ hbits]

/-- At least one variable suffices for both parities. -/
theorem exists_parity_ne {n : Nat} (hn : 0 < n) (rhs : Bool) :
    ∃ bits : List Bool, bits.length = n ∧ parity bits ≠ rhs := by
  refine ⟨(!rhs) :: List.replicate (n - 1) false, ?_, ?_⟩
  · rw [List.length_cons, List.length_replicate, Nat.sub_add_cancel hn]
  · rw [parity_cons, parity_eq_false fun b hb => List.eq_of_mem_replicate hb, Bool.xor_false]
    exact Bool.not_ne_self rhs

namespace XorRecovery

variable {f : Cnf} {a : Var → Bool} {vars : List Var} {r : XorRelation}

theorem perm_sorted (c : Clause) : (sorted c).Perm c := List.mergeSort_perm c _

/-- The variables of an ordered clause ascend, each of them once if they are distinct. -/
theorem pairwise_sorted {c : Clause} (hc : (c.map Literal.var).Nodup) :
    ((sorted c).map Literal.var).Pairwise (· < ·) := by
  have hsorted : (sorted c).Pairwise fun l k => (compare l k).isLE = true := pairwise_isLE_mergeSort c
  have hle : ((sorted c).map Literal.var).Pairwise (· ≤ ·) :=
    List.pairwise_map.2 (hsorted.imp fun h => Nat.isLE_compare.1 (Ordering.isLE_left_of_isLE_then h))
  have hnodup : ((sorted c).map Literal.var).Nodup := ((perm_sorted c).map _).nodup_iff.2 hc
  exact (hle.and hnodup).imp fun h => Nat.lt_of_le_of_ne h.1 h.2

/-- An assignment is forbidden by an eligible clause just if it falsifies a clause over exactly these variables: with
its literals in order, such a clause is the one that forbids the assignment. -/
theorem forbidBits_mem_eligible (hvars : vars.Pairwise (· < ·)) (htwo : 2 ≤ vars.length) (hsix : vars.length ≤ 6) :
    forbidBits vars (vars.map a) ∈ eligible f ↔
      ∃ c ∈ f, (c.map Literal.var).Perm vars ∧ Clause.holds a c = false := by
  have hvar : (forbidBits vars (vars.map a)).map Literal.var = vars := map_var_forbidBits (List.length_map a)
  rw [mem_eligible]
  constructor
  · rintro ⟨⟨c, hc, hsorted⟩, -⟩
    refine ⟨c, hc, ?_, ?_⟩
    · have hperm := (perm_sorted c).symm.map Literal.var
      rwa [hsorted, hvar] at hperm
    · rw [← holds_sorted, hsorted, ← Bool.not_eq_true, holds_forbidBits (List.length_map a)]
      exact not_not.2 rfl
  · rintro ⟨c, hc, hperm, hfails⟩
    have hnodup : (c.map Literal.var).Nodup := hperm.nodup_iff.2 hvars.nodup
    have hsorted : (sorted c).map Literal.var = vars :=
      List.Perm.eq_of_pairwise' (pairwise_sorted hnodup) hvars (((perm_sorted c).map _).trans hperm)
    have hforbid := Clause.eq_forbidBits ((holds_sorted c).trans hfails)
    rw [hsorted] at hforbid
    have hlength : (forbidBits vars (vars.map a)).length = vars.length := by
      rw [← List.length_map Literal.var, hvar]
    refine ⟨⟨c, hc, hforbid.symm⟩, ?_, hvar.symm ▸ hvars.nodup⟩
    rw [hlength]
    exact ⟨htwo, hsix⟩

theorem mem_relations_iff : r ∈ relations f ↔ r.RecoveredFrom f := by
  rw [mem_relations]
  constructor
  · rintro ⟨hvars, hclauses⟩
    obtain ⟨d, hd, hvar⟩ := mem_supports.1 hvars
    obtain ⟨⟨c, hc, rfl⟩, ⟨htwo, hsix⟩, hnodup⟩ := mem_eligible.1 hd
    have hascending : r.vars.Pairwise (· < ·) :=
      hvar ▸ pairwise_sorted (((perm_sorted c).map Literal.var).nodup_iff.1 hnodup)
    rw [← List.length_map Literal.var, hvar] at htwo hsix
    refine ⟨hascending, htwo, hsix, fun a hparity => ?_⟩
    rw [← forbidBits_mem_eligible hascending htwo hsix]
    exact hclauses _ (mem_parityClauses.2 ⟨_, List.length_map a, hparity, rfl⟩)
  · intro h
    have hforbidden : ∀ bits : List Bool, bits.length = r.vars.length → parity bits ≠ r.rhs →
        forbidBits r.vars bits ∈ eligible f := by
      intro bits hlength hparity
      obtain ⟨a, rfl⟩ := exists_map_eq h.ascending.nodup hlength
      exact (forbidBits_mem_eligible h.ascending h.two_le_length h.length_le_six).2 (h.falsified a hparity)
    constructor
    -- some clause must put the variables among those considered
    · obtain ⟨bits, hlength, hparity⟩ := exists_parity_ne (Nat.zero_lt_of_lt h.two_le_length) r.rhs
      exact mem_supports.2 ⟨_, hforbidden bits hlength hparity, map_var_forbidBits hlength⟩
    · intro c hc
      obtain ⟨bits, hlength, hparity, rfl⟩ := mem_parityClauses.1 hc
      exact hforbidden bits hlength hparity

/-- The clauses of a short sum are enough for its recovery, in whatever order its variables stand and whatever other
clauses there are. -/
theorem recoveredFrom_of_parityClauses {rhs : Bool} (hvars : vars.Nodup) (htwo : 2 ≤ vars.length)
    (hsix : vars.length ≤ 6) (hclauses : ∀ c ∈ parityClauses vars rhs, c ∈ f) :
    XorRelation.RecoveredFrom f ⟨(OrderedSet.ofList vars).toList, rhs⟩ := by
  have hperm := OrderedSet.perm_ofList hvars
  refine ⟨OrderedSet.pairwise_lt _, hperm.length_eq ▸ htwo, hperm.length_eq ▸ hsix, fun a hparity => ?_⟩
  rw [OrderedSet.parity_ofList hvars] at hparity
  have hlength : (vars.map a).length = vars.length := List.length_map a
  refine ⟨forbidBits vars (vars.map a), hclauses _ (mem_parityClauses.2 ⟨_, hlength, hparity, rfl⟩), ?_, ?_⟩
  · rw [map_var_forbidBits hlength]
    exact hperm.symm
  · rw [← Bool.not_eq_true, holds_forbidBits hlength]
    exact not_not.2 rfl

end XorRecovery

namespace Decider

theorem exists_solver_eq_ok (decide : Decider) (q : Query) : ∃ report, decide.solver q = .ok report ∧
    report.relations = XorRecovery.relations q.clauses ∧
    report.combined = XorRecovery.combinations (XorRecovery.relations q.clauses) := by
  cases hanswer : decide q.numVars q.clauses q.assumptions with
  | none => exact ⟨_, solver_of_none hanswer, rfl, rfl⟩
  | some model => exact ⟨_, solver_of_some hanswer, rfl, rfl⟩

/-- Every answer lists the linear relations among the clauses, sound and complete. A relation is listed, once, just if
it is over two to six variables in ascending order and each assignment of the wrong parity falsifies a clause over
exactly these variables; the combined relations are, each once, the sums of two distinct ones that share a variable
and do not cancel. Where all clauses hold, all these relations do. All clauses of a sum over two to six distinct
variables, in any order, are enough for its recovery, whatever other clauses there are. -/
theorem solver_recovers (decide : Decider) (q : Query) : ∃ report, decide.solver q = .ok report ∧
    (∀ r, r ∈ report.relations ↔ r.RecoveredFrom q.clauses) ∧ report.relations.Nodup ∧
    (∀ sum, sum ∈ report.combined ↔ ∃ r ∈ report.relations, ∃ p ∈ report.relations, r ≠ p ∧
      (∃ v ∈ r.vars, v ∈ p.vars) ∧ sum.vars ≠ [] ∧ r.IsSum p sum) ∧ report.combined.Nodup ∧
    (∀ a, q.clauses.holds a = true → ∀ r ∈ report.relations ++ report.combined, r.Holds a) ∧
    ∀ vars rhs, vars.Nodup → 2 ≤ vars.length → vars.length ≤ 6 → (∀ c ∈ parityClauses vars rhs, c ∈ q.clauses) →
      ∃ r ∈ report.relations, r.vars.Perm vars ∧ r.rhs = rhs := by
  obtain ⟨report, hok, hrelations, hcombined⟩ := exists_solver_eq_ok decide q
  refine ⟨report, hok, ?_⟩
  rw [hcombined, hrelations]
  have hnodup := XorRecovery.nodup_relations q.clauses
  refine ⟨fun _ => XorRecovery.mem_relations_iff, hnodup, fun _ => XorRecovery.mem_combinations hnodup,
    OrderedSet.nodup_toList _, fun a ha => ?_, fun vars rhs hvars htwo hsix hclauses => ?_⟩
  · refine List.forall_mem_append.2 ⟨fun _ hr => ?_, fun _ hr => ?_⟩
    · exact XorRecovery.holds_of_mem_relations ha hr
    · exact XorRecovery.holds_of_mem_combinations ha hr
  · have hrecovered := XorRecovery.recoveredFrom_of_parityClauses hvars htwo hsix hclauses
    exact ⟨_, XorRecovery.mem_relations_iff.2 hrecovered, OrderedSet.perm_ofList hvars, rfl⟩

/-- The clauses of `x1 + x0 = 1` and `x3 + x1 + x2 = 0` stand among a tautology, a repeated clause and one over other
variables, and both relations and their sum hold where only `x1` and `x2` are one. -/
theorem solver_recovers_among_others :
    let f : Cnf := [[⟨0, true⟩, ⟨0, false⟩], [⟨0, true⟩, ⟨1, true⟩], [⟨2, true⟩, ⟨3, true⟩]] ++
      parityClauses [1, 0] true ++ parityClauses [3, 1, 2] false
    let a : Var → Bool := fun v => v == 1 || v == 2
    ∃ report, Decider.solver Cnf.solveUnder { Query.empty with numVars := 4, clauses := f } = .ok report ∧
      (∃ r ∈ report.relations, r.vars.Perm [1, 0] ∧ r.rhs = true) ∧
      (∃ r ∈ report.relations, r.vars.Perm [3, 1, 2] ∧ r.rhs = false) ∧
      f.holds a = true ∧ ∀ r ∈ report.relations ++ report.combined, r.Holds a := by
  intro f a
  obtain ⟨report, hok, -, -, -, -, hsound, hchunks⟩ :=
    solver_recovers Cnf.solveUnder { Query.empty with numVars := 4, clauses := f }
  have ha : f.holds a = true := by decide
  refine ⟨report, hok, ?_, ?_, ha, hsound a ha⟩
  · exact hchunks [1, 0] true (by decide) (by decide) (by decide) (by decide)
  · exact hchunks [3, 1, 2] false (by decide) (by decide) (by decide) (by decide)

end Decider

end BoolPoly
