import BoolPoly.Solver.Probing
import BoolPoly.Proofs.Cnf.Extension

namespace BoolPoly.Probing

/-- Whether the probe finds no model only if no assignment in `M` satisfies the additional assumptions. Nothing is
asked of a model that it finds. -/
def Refutes (probe : Probe) (numVars : Nat) (M : (Var → Bool) → Prop) : Prop :=
  ∀ extra : List Literal, (∀ l ∈ extra, l.var < numVars) → probe extra = none →
    ∀ a, M a → ¬∀ l ∈ extra, l.holds a = true

variable {probe : Probe} {numVars : Nat} {M : (Var → Bool) → Prop} {first : Array Bool}

theorem holds_of_mem_findUnits (hprobe : Refutes probe numVars M) {vs : List Var} (hvs : ∀ v ∈ vs, v < numVars)
    {s : State} {l : Literal} (hl : l ∈ (findUnits probe first vs s).1) {a : Var → Bool} (ha : M a) :
    l.holds a = true := by
  induction vs generalizing s with
  | nil => cases hl
  | cons v vs ih =>
    obtain ⟨hv, hvs⟩ := List.forall_mem_cons.1 hvs
    rw [findUnits] at hl
    dsimp only at hl
    split at hl
    · exact ih hvs hl
    · split at hl
      · cases hl
      · split at hl
        · exact ih hvs hl
        · next hanswer =>
          rcases List.mem_cons.1 hl with rfl | hl
          · have hnone := hprobe [⟨v, !valueAt first v⟩] (List.forall_mem_singleton.2 hv)
              (Option.not_isSome_iff_eq_none.1 hanswer) a ha
            rw [List.forall_mem_singleton, Literal.holds_mk] at hnone
            rw [Literal.holds_mk]
            exact Bool.not_eq_not.1 hnone
          · exact ih hvs hl

/-- When neither value of `u` can go with the wrong value of `v`, the two are equivalent. Two refuted questions are
needed for it, one for each value. -/
theorem holds_eq_of_refuted (hprobe : Refutes probe numVars M) {u v : Var} (hu : u < numVars) (hv : v < numVars)
    {inverted : Bool} (hrefuted : ∀ b, probe (apart u v inverted b) = none) {a : Var → Bool} (ha : M a) :
    Literal.holds a ⟨u, true⟩ = Literal.holds a ⟨v, !inverted⟩ := by
  have hlt : ∀ l ∈ apart u v inverted (a u), l.var < numVars :=
    List.forall_mem_cons.2 ⟨hu, List.forall_mem_singleton.2 hv⟩
  have hnone := hprobe _ hlt (hrefuted (a u)) a ha
  rw [apart, List.forall_mem_cons, List.forall_mem_singleton, Literal.holds_mk, Literal.holds_mk] at hnone
  have hv' : a v = (a u ^^ inverted) := by
    by_contra hne
    exact hnone ⟨rfl, Bool.eq_not.2 hne⟩
  rw [Literal.holds, Literal.holds, Literal.satisfiedBy, Literal.satisfiedBy, hv']
  cases a u <;> cases inverted <;> rfl

theorem holds_eq_of_mem_findEquivalences (hprobe : Refutes probe numVars M) {free : List Var}
    (hfree : ∀ v ∈ free, v < numVars) {tested : List (Var × Var)} {s : State} {pair : Literal × Literal}
    (hmem : pair ∈ (findEquivalences probe first free tested s).1) {a : Var → Bool} (ha : M a) :
    pair.1.holds a = pair.2.holds a := by
  fun_induction findEquivalences probe first free tested s with
  | case1 => cases hmem
  | case2 => cases hmem
  | case3 tested s u v hpair _ inverted _ below s' _ ih => exact ih hmem
  | case4 => cases hmem
  | case5 tested s u v hpair _ inverted hbudget below s' hbelow hbudget' above s'' found rest heq ih =>
    rw [heq] at ih
    dsimp only at hmem
    split at hmem
    · exact ih hmem
    · next habove =>
      rcases List.mem_cons.1 hmem with rfl | hmem
      · obtain ⟨hu, hv, -⟩ := nextPair?_spec hpair
        refine holds_eq_of_refuted hprobe (hfree u hu) (hfree v hv) ?_ ha
        intro b
        cases b with
        | false => exact Option.not_isSome_iff_eq_none.1 hbelow
        | true => exact Option.not_isSome_iff_eq_none.1 habove
      · exact ih hmem

/-- What probing finds holds in every model, whatever the budget and the models met: a literal is a unit only after
its negation was refuted, and two literals are equivalent only after both ways of setting them apart were. -/
theorem run_sound (hprobe : Refutes probe numVars M) {vars : List Var} (hvars : ∀ v ∈ vars, v < numVars)
    (budget : Nat) {a : Var → Bool} (ha : M a) :
    (∀ l ∈ (run probe budget vars first).units, l.holds a = true) ∧
    ∀ pair ∈ (run probe budget vars first).equivalences, pair.1.holds a = pair.2.holds a := by
  constructor
  · intro l hl
    exact holds_of_mem_findUnits hprobe hvars hl ha
  · intro pair hpair
    exact holds_eq_of_mem_findEquivalences hprobe (fun v hv => hvars v (List.mem_filter.1 hv).1) hpair ha

end BoolPoly.Probing
