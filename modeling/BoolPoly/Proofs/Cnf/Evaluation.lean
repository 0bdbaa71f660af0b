import BoolPoly.Cnf
import Mathlib.Data.List.Forall2

namespace BoolPoly

namespace ThreeValued

variable {l : List (Option Bool)} {x y : Option Bool} {decisive undetermined : Bool}

theorem eq_of_iff (htrue : x = some true ↔ y = some true) (hfalse : x = some false ↔ y = some false) : x = y := by
  rcases x with _ | _ | _ <;> rcases y with _ | _ | _ <;> simp_all

theorem eq_none_iff : x = none ↔ x ≠ some true ∧ x ≠ some false := by
  rcases x with _ | _ | _ <;> simp

/-- Scans a list for the value `decisive`, and stops where it is found. The flag says whether a value was missing so
far, which is all that is remembered on the way. -/
def scan (decisive undetermined : Bool) : List (Option Bool) → Option Bool
  | [] => if undetermined then none else some !decisive
  | some b :: rest => if b = decisive then some decisive else scan decisive undetermined rest
  | none :: rest => scan decisive true rest

/-- The scan finds the decisive value wherever it stands, also behind values that are missing. -/
theorem scan_eq_decisive : scan decisive undetermined l = some decisive ↔ some decisive ∈ l := by
  fun_induction scan decisive undetermined l with
  | case1 => simp
  | case2 => simp
  | case3 => simp
  | case4 undetermined b rest hb ih => simp [ih, Ne.symm hb]
  | case5 undetermined rest ih => simp [ih]

/-- The other value is found if no value is missing and none is decisive, so that in the remaining case the result is
unknown. -/
theorem scan_eq_not_decisive :
    scan decisive undetermined l = some (!decisive) ↔ undetermined = false ∧ ∀ x ∈ l, x = some !decisive := by
  fun_induction scan decisive undetermined l with
  | case1 => simp
  | case2 => simp_all
  | case3 => simp
  | case4 undetermined b rest hb ih => simp [ih, Bool.eq_not_of_ne hb]
  | case5 undetermined rest ih => simp [ih]

theorem any_eq_scan : any l = scan true false l := by
  have hfalse : scan true false l = some false ↔ _ := scan_eq_not_decisive
  apply eq_of_iff
  · rw [any_eq_true, scan_eq_decisive]
  · rw [any_eq_false, hfalse, and_iff_right rfl, Bool.not_true]

theorem all_eq_scan : all l = scan false false l := by
  have htrue : scan false false l = some true ↔ _ := scan_eq_not_decisive
  apply eq_of_iff
  · rw [all_eq_true, htrue, and_iff_right rfl, Bool.not_false]
  · rw [all_eq_false, scan_eq_decisive]

end ThreeValued

open ThreeValued

variable {a b : Var → Option Bool}

theorem Literal.map_satisfiedBy_eq_some {l : Literal} {x : Bool} :
    (a l.var).map l.satisfiedBy = some x ↔ a l.var = some (x == l.positive) := by
  cases a l.var with
  | none => simp
  | some y =>
    rw [Option.map_some, Option.some_inj, Option.some_inj, satisfiedBy]
    cases l.positive <;> simp [Bool.eq_not]

/-- Whether a partial assignment binds at least what another one does, to the same values. Values that are known under
the latter stay known. -/
def BindsMore (b a : Var → Option Bool) : Prop := ∀ v x, a v = some x → b v = some x

namespace Clause

variable {c d : Clause}

theorem eval?_eq_true : c.eval? a = some true ↔ ∃ l ∈ c, a l.var = some l.positive := by
  simp only [eval?, any_eq_true, List.mem_map, Literal.map_satisfiedBy_eq_some, Bool.true_beq]

theorem eval?_eq_false : c.eval? a = some false ↔ ∀ l ∈ c, a l.var = some !l.positive := by
  simp only [eval?, any_eq_false, List.forall_mem_map, Literal.map_satisfiedBy_eq_some, Bool.false_beq]

theorem eval?_perm (h : c.Perm d) : c.eval? a = d.eval? a := by
  apply eq_of_iff
  · simp only [eval?_eq_true, h.mem_iff]
  · simp only [eval?_eq_false, h.mem_iff]

end Clause

namespace Cnf

variable {f g : Cnf}

theorem eval?_eq_true : f.eval? a = some true ↔ ∀ c ∈ f, ∃ l ∈ c, a l.var = some l.positive := by
  simp only [eval?, all_eq_true, List.forall_mem_map, Clause.eval?_eq_true]

theorem eval?_eq_false : f.eval? a = some false ↔ ∃ c ∈ f, ∀ l ∈ c, a l.var = some !l.positive := by
  simp only [eval?, all_eq_false, List.mem_map, Clause.eval?_eq_false]

theorem eval?_eq_scan : f.eval? a =
    scan false false (f.map fun c => scan true false (c.map fun l => (a l.var).map l.satisfiedBy)) := by
  rw [eval?, all_eq_scan]
  exact congrArg (scan false false) (List.map_congr_left fun c _ => any_eq_scan)

/-- Whether the formulas have the same clauses, in any order and with their literals in any order. No clause and no
literal may be left out or repeated. -/
def Reordered (f g : Cnf) : Prop := ∃ h : Cnf, f.Perm h ∧ List.Forall₂ List.Perm h g

theorem eval?_reordered (h : f.Reordered g) : g.eval? a = f.eval? a := by
  obtain ⟨k, hclauses, hliterals⟩ := h
  have hvalues : k.map (Clause.eval? a) = g.map (Clause.eval? a) := by
    clear hclauses
    induction hliterals with
    | nil => rfl
    | cons hperm _ ih => rw [List.map_cons, List.map_cons, Clause.eval?_perm hperm, ih]
  calc g.eval? a = k.eval? a := congrArg all hvalues.symm
    _ = f.eval? a := by
      apply eq_of_iff
      · simp only [eval?_eq_true, hclauses.mem_iff]
      · simp only [eval?_eq_false, hclauses.mem_iff]

theorem mem_and {c : Clause} : c ∈ f.and g ↔ c ∈ f ∨ c ∈ g := by
  rw [and]
  split
  · rw [List.mem_append, or_comm]
  · exact List.mem_append

theorem eval?_and : (f.and g).eval? a = ThreeValued.and (f.eval? a) (g.eval? a) := by
  apply eq_of_iff
  · simp only [and_eq_true, eval?_eq_true, mem_and, or_imp, forall_and]
  · simp only [and_eq_false, eval?_eq_false, mem_and, or_and_right, exists_or]

/-- Binding more variables keeps a value that is known. A formula that is true has a literal that holds in every
clause, and one that is false has a clause of failing literals; neither is lost. -/
theorem eval?_of_bindsMore {x : Bool} (hmore : BindsMore b a) (h : f.eval? a = some x) : f.eval? b = some x := by
  cases x with
  | true =>
    rw [eval?_eq_true] at h ⊢
    intro c hc
    obtain ⟨l, hl, hvalue⟩ := h c hc
    exact ⟨l, hl, hmore _ _ hvalue⟩
  | false =>
    rw [eval?_eq_false] at h ⊢
    obtain ⟨c, hc, hvalues⟩ := h
    exact ⟨c, hc, fun l hl => hmore _ _ (hvalues l hl)⟩

/-- Formulas are evaluated in Kleene's logic. The value is what two nested scans find that stop early: true if every
clause has a literal that holds, false if some clause has no literal but failing ones, unknown otherwise. It does not
depend on the order of clauses and of literals, binding more variables never changes a value that is known, and the
value of a conjunction is the conjunction of the values. -/
theorem eval?_kleene (f : Cnf) (a : Var → Option Bool) :
    f.eval? a = scan false false (f.map fun c => scan true false (c.map fun l => (a l.var).map l.satisfiedBy)) ∧
    (f.eval? a = some true ↔ ∀ c ∈ f, ∃ l ∈ c, a l.var = some l.positive) ∧
    (f.eval? a = some false ↔ ∃ c ∈ f, ∀ l ∈ c, a l.var = some !l.positive) ∧
    (f.eval? a = none ↔
      ¬(∀ c ∈ f, ∃ l ∈ c, a l.var = some l.positive) ∧ ¬∃ c ∈ f, ∀ l ∈ c, a l.var = some !l.positive) ∧
    (∀ g, f.Reordered g → g.eval? a = f.eval? a) ∧
    (∀ b x, BindsMore b a → f.eval? a = some x → f.eval? b = some x) ∧
    ∀ g, (f.and g).eval? a = ThreeValued.and (f.eval? a) (g.eval? a) := by
  refine ⟨eval?_eq_scan, eval?_eq_true, eval?_eq_false, ?_, fun g => eval?_reordered,
    fun b x => eval?_of_bindsMore, fun g => eval?_and⟩
  rw [eq_none_iff, Ne, Ne, eval?_eq_true, eval?_eq_false]

/-- A formula that one clause falsifies, however its clauses and literals stand: the other clause is unknown until
more variables are bound. -/
theorem eval?_kleene_falsified :
    let f : Cnf := [[⟨0, true⟩, ⟨1, false⟩], [⟨2, true⟩, ⟨3, false⟩]]
    let g : Cnf := [[⟨3, false⟩, ⟨2, true⟩], [⟨1, false⟩, ⟨0, true⟩]]
    let a : Var → Option Bool := fun v => if v = 2 then some false else if v = 3 then some true else none
    let b : Var → Option Bool := fun v => if v = 0 then some true else a v
    f.Reordered g ∧ g.eval? a = f.eval? a ∧ BindsMore b a ∧ f.eval? a = some false ∧ f.eval? b = some false := by
  intro f g a b
  obtain ⟨-, -, -, -, hreordered, hmore, -⟩ := eval?_kleene f a
  have hfg : f.Reordered g :=
    ⟨f.reverse, (List.reverse_perm f).symm, .cons (.swap _ _ _) (.cons (.swap _ _ _) .nil)⟩
  have hab : BindsMore b a := by
    intro v x hx
    by_cases hv : v = 0
    · rw [hv] at hx
      cases hx
    · exact (if_neg hv).trans hx
  have hvalue : f.eval? a = some false := by decide
  exact ⟨hfg, hreordered g hfg, hab, hvalue, hmore b false hab hvalue⟩

end Cnf

end BoolPoly
