import BoolPoly.EquationSystem.Text
import BoolPoly.Proofs.EquationSystem.Invariant

namespace BoolPoly.EquationSystem

variable {s t : EquationSystem}

/-- The polynomial on a line, if the line has one. A line that is skipped has none, and neither has one that cannot be
decoded or read. -/
def linePolynomial? (line : Option (List Char)) : Option Polynomial := do
  let cs := Text.trim (← line)
  if isSkipped cs then none else (Polynomial.ofChars cs).toOption

theorem addLine_ok {line : Option (List Char) × Nat} (h : s.addLine line = .ok t) :
    (linePolynomial? line.1).toList.foldlM (fun s p => (s.addCounted? p).map Prod.snd) s = some t := by
  obtain ⟨line, number⟩ := line
  rw [addLine] at h
  cases line with
  | none => cases h
  | some cs =>
    dsimp only at h
    rw [linePolynomial?, Option.bind_eq_bind, Option.bind_some]
    by_cases hskipped : isSkipped (Text.trim cs) = true
    · rw [if_pos hskipped] at h ⊢
      cases h
      rfl
    · rw [if_neg hskipped] at h ⊢
      cases hp : Polynomial.ofChars (Text.trim cs) with
      | ok p =>
        rw [hp] at h
        dsimp only at h
        split at h
        · next hadd =>
          cases h
          simp [Except.toOption, hadd]
        · cases h
      | error cause =>
        rw [hp] at h
        cases h

theorem addLines_none {lines : List (Option (List Char) × Nat)} (h : s.addLines lines = (t, none)) :
    ((lines.map Prod.fst).filterMap linePolynomial?).foldlM (fun s p => (s.addCounted? p).map Prod.snd) s =
      some t := by
  induction lines generalizing s with
  | nil =>
    cases h
    rfl
  | cons line lines ih =>
    rw [addLines] at h
    split at h
    · next s' hline =>
      have hfirst := addLine_ok hline
      rw [List.map_cons, List.filterMap_cons]
      cases hp : linePolynomial? line.1 with
      | none =>
        rw [hp] at hfirst
        cases hfirst
        exact ih h
      | some p =>
        simp only [hp, Option.toList_some, List.foldlM_cons, List.foldlM_nil, bind_pure] at hfirst
        rw [List.foldlM_cons, hfirst]
        exact ih h
    · cases h

/-- The system of a text is that of the polynomials on its lines, all of which came in. So a text that can be read has
no variable that cannot be counted. -/
theorem ofPolynomials?_of_ofLines {lines : List (Option (List Char))} (h : ofLines lines = .ok s) :
    ofPolynomials? (lines.filterMap linePolynomial?) = some s := by
  rw [ofLines] at h
  split at h
  · next t hread =>
    cases h
    rw [← addLines_none hread, List.zipIdx_map_fst, ofPolynomials?]
  · cases h

theorem ofLines_ok {lines : List (Option (List Char))} (h : ofLines lines = .ok s) :
    s = ofPolynomials (lines.filterMap linePolynomial?) :=
  (ofPolynomials?_eq_some_iff.1 (ofPolynomials?_of_ofLines h)).2.symm

theorem reachable_of_ofLines {lines : List (Option (List Char))} (h : ofLines lines = .ok s) : s.Reachable := by
  obtain ⟨hcountable, rfl⟩ := ofPolynomials?_eq_some_iff.1 (ofPolynomials?_of_ofLines h)
  exact reachable_ofPolynomials hcountable

/-- The solutions of the system of a text are the common zeros of the polynomials on its lines. What the other lines
say does not matter. -/
theorem solves_ofLines_iff {lines : List (Option (List Char))} (h : ofLines lines = .ok s) {a : Var → Bool} :
    Solves a s ↔ ∀ p ∈ lines.filterMap linePolynomial?, p.eval a = false := by
  rw [ofLines_ok h, solves_ofPolynomials]

end BoolPoly.EquationSystem
