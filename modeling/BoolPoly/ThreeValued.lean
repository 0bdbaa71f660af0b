namespace BoolPoly.ThreeValued

/-- The disjunction of Kleene's logic on optional Booleans, where `none` stands for a value that is not known: it is
true as soon as one part is true, false when both parts are false, and unknown otherwise. -/
def or : Option Bool → Option Bool → Option Bool
  | some true, _ => some true
  | some false, y => y
  | none, some true => some true
  | none, _ => none

/-- The conjunction of Kleene's logic, dual to the disjunction: false as soon as one part is false, and true when both
parts are true. -/
def and : Option Bool → Option Bool → Option Bool
  | some false, _ => some false
  | some true, y => y
  | none, some false => some false
  | none, _ => none

/-- The disjunction of a list. -/
def any (l : List (Option Bool)) : Option Bool := l.foldr or (some false)

/-- The conjunction of a list. -/
def all (l : List (Option Bool)) : Option Bool := l.foldr and (some true)

theorem or_eq_true {x y : Option Bool} : or x y = some true ↔ x = some true ∨ y = some true := by
  rcases x with _ | _ | _ <;> rcases y with _ | _ | _ <;> simp [or]

theorem or_eq_false {x y : Option Bool} : or x y = some false ↔ x = some false ∧ y = some false := by
  rcases x with _ | _ | _ <;> rcases y with _ | _ | _ <;> simp [or]

theorem and_eq_true {x y : Option Bool} : and x y = some true ↔ x = some true ∧ y = some true := by
  rcases x with _ | _ | _ <;> rcases y with _ | _ | _ <;> simp [and]

theorem and_eq_false {x y : Option Bool} : and x y = some false ↔ x = some false ∨ y = some false := by
  rcases x with _ | _ | _ <;> rcases y with _ | _ | _ <;> simp [and]

theorem any_eq_true {l : List (Option Bool)} : any l = some true ↔ some true ∈ l := by
  induction l with
  | nil => simp [any]
  | cons x l ih =>
    simp only [any] at ih
    simp only [any, List.foldr_cons, or_eq_true, ih, List.mem_cons]
    exact or_congr_left eq_comm

theorem any_eq_false {l : List (Option Bool)} : any l = some false ↔ ∀ x ∈ l, x = some false := by
  induction l with
  | nil => simp [any]
  | cons x l ih =>
    simp only [any] at ih
    simp only [any, List.foldr_cons, or_eq_false, ih, List.forall_mem_cons]

theorem all_eq_true {l : List (Option Bool)} : all l = some true ↔ ∀ x ∈ l, x = some true := by
  induction l with
  | nil => simp [all]
  | cons x l ih =>
    simp only [all] at ih
    simp only [all, List.foldr_cons, and_eq_true, ih, List.forall_mem_cons]

theorem all_eq_false {l : List (Option Bool)} : all l = some false ↔ some false ∈ l := by
  induction l with
  | nil => simp [all]
  | cons x l ih =>
    simp only [all] at ih
    simp only [all, List.foldr_cons, and_eq_false, ih, List.mem_cons]
    exact or_congr_left eq_comm

end BoolPoly.ThreeValued
