import BoolPoly.Proofs.EquationSystem.Completion
import BoolPoly.Proofs.EquationSystem.Text
import BoolPoly.Solver.Probing
import Mathlib.Order.Nat

open Std

namespace BoolPoly

open Probing (valueAt)

namespace EquationSystem

variable {s t : EquationSystem} {p : Polynomial} {solution : Solution}

/-- Whether a polynomial is zero at a vector, which then gives a value to each of its variables. A vector that is too
short for one of them does not count. -/
def Vanishes (solution : Solution) (p : Polynomial) : Prop := p.eval? (fun v => solution[v]?) = some false

theorem checkEquation_eq_ok_iff : checkEquation solution p = .ok () ↔ Vanishes solution p := by
  unfold checkEquation Vanishes
  split
  · next h => simp [h]
  · next h => simp [h]
  · next h => simp [h]

theorem check_eq_ok_iff : s.check solution = .ok () ↔ ∀ p ∈ s.polynomials, Vanishes solution p := by
  simp only [← checkEquation_eq_ok_iff]
  refine ⟨fun h => ?_, check_eq_ok⟩
  unfold check at h
  generalize s.polynomials = ps at h ⊢
  induction ps with
  | nil => exact List.forall_mem_nil _
  | cons p ps ih =>
    change (checkEquation solution p >>= fun _ => ps.forM (checkEquation solution)) = .ok () at h
    cases hp : checkEquation solution p with
    | error e =>
      rw [hp] at h
      cases h
    | ok _ =>
      rw [hp] at h
      exact List.forall_mem_cons.2 ⟨hp, ih h⟩

theorem getElem?_eq_valueAt {v : Var} (hv : v < solution.size) : solution[v]? = some (valueAt solution v) := by
  unfold valueAt
  rw [Array.getElem?_eq_getElem hv, Option.getD_some]

/-- A vector with a value for every variable of a polynomial evaluates it like an assignment, so that vectors that are
long enough can be treated as assignments. -/
theorem vanishes_iff (hvars : ∀ v ∈ p.vars, v < solution.size) :
    Vanishes solution p ↔ p.eval (valueAt solution) = false := by
  have heval : p.eval? (fun v => solution[v]?) = some (p.eval (valueAt solution)) :=
    Polynomial.eval?_eq_some fun v hv => getElem?_eq_valueAt (hvars v hv)
  unfold Vanishes
  rw [heval, Option.some.injEq]

/-- A vector that is long enough passes the check exactly if it is a solution: every equation is zero there, and every
fact holds. -/
theorem check_iff_solves (hs : s.Valid) (hsize : s.numVars ≤ solution.size) :
    s.check solution = .ok () ↔ Solves (valueAt solution) s := by
  rw [check_eq_ok_iff]
  refine forall₂_congr fun p hp => vanishes_iff fun v hv => ?_
  exact Nat.lt_of_lt_of_le (lt_of_mem_polynomials hs hp hv) hsize

theorem check_reserve : (s.reserve p).check solution = s.check solution := rfl

theorem Intake.check_iff {r : Bool × EquationSystem} (h : s.Intake p r) (hs : s.Valid)
    (hp : ∀ v ∈ p.vars, v < s.numVars) (hsize : s.numVars ≤ solution.size) :
    r.2.check solution = .ok () ↔ s.check solution = .ok () ∧ Vanishes solution p := by
  have habsorbs := h.absorbs hs.facts
  have hsize' : r.2.numVars ≤ solution.size := by
    rw [habsorbs.numVars]
    exact hsize
  rw [check_iff_solves (h.valid hs hp) hsize', check_iff_solves hs hsize, habsorbs.solves, List.forall_mem_singleton,
    vanishes_iff fun v hv => Nat.lt_of_lt_of_le (hp v hv) hsize]

/-- Adding an equation lets those vectors pass that passed before and at which it vanishes. This holds of every valid
system, also of a contradictory one, which no vector passes. -/
theorem check_add (hs : s.Valid) (hsize : (s.add p).2.numVars ≤ solution.size) :
    (s.add p).2.check solution = .ok () ↔ s.check solution = .ok () ∧ Vanishes solution p := by
  rw [numVars_add hs] at hsize
  exact (intake_add s p).check_iff (hs.reserve p) (numVars_reserve s p).2 hsize

/-- A polynomial that is not taken in leaves the system as it was, but for the room for its variables, which no check
depends on. -/
theorem learn_of_not_changed (h : (s.learn p).1 = false) : (s.learn p).2 = s.reserve p := by
  cases intake_learn s p with
  | inr hdropped => rw [hdropped]
  | inl hintake =>
    generalize s.learn p = r at hintake h
    cases hintake with
    | known _ => rfl
    | refuted _ => cases h
    | recorded _ => cases h
    | repeated _ => rfl
    | kept _ _ _ _ => cases h

theorem check_learn (hs : s.Valid) (hchanged : (s.learn p).1 = true)
    (hsize : (s.learn p).2.numVars ≤ solution.size) :
    (s.learn p).2.check solution = .ok () ↔ s.check solution = .ok () ∧ Vanishes solution p := by
  cases intake_learn s p with
  | inl hintake =>
    rw [(hintake.absorbs (hs.reserve p).facts).numVars] at hsize
    exact hintake.check_iff (hs.reserve p) (numVars_reserve s p).2 hsize
  | inr hdropped =>
    rw [hdropped] at hchanged
    cases hchanged

section Text

variable {lines : List (Option (List Char))}

/-- Whether a line can be read: it can be decoded, and unless it is skipped it holds a polynomial whose variables can
be counted. -/
def Readable (line : Option (List Char)) : Prop :=
  ∃ cs, line = some cs ∧
    (isSkipped (Text.trim cs) = true ∨ ∃ p, Polynomial.ofChars (Text.trim cs) = .ok p ∧ p.Countable)

theorem addLine_isOk_iff {line : Option (List Char) × Nat} : (∃ t, s.addLine line = .ok t) ↔ Readable line.1 := by
  obtain ⟨line, number⟩ := line
  cases line with
  | none => simp [addLine, Readable]
  | some cs =>
    simp only [addLine, Readable, Option.some.injEq, exists_eq_left']
    by_cases hskipped : isSkipped (Text.trim cs) = true
    · simp [hskipped]
    · cases hp : Polynomial.ofChars (Text.trim cs) with
      | ok p =>
        by_cases hcountable : p.Countable
        · simp [hskipped, addCounted?, hcountable]
        · simp [hskipped, addCounted?, hcountable]
      | error cause => simp [hskipped]

theorem addLines_isOk_iff {lines : List (Option (List Char) × Nat)} :
    (∃ t, s.addLines lines = (t, none)) ↔ ∀ line ∈ lines, Readable line.1 := by
  induction lines generalizing s with
  | nil => exact ⟨fun _ => List.forall_mem_nil _, fun _ => ⟨s, rfl⟩⟩
  | cons line lines ih =>
    rw [List.forall_mem_cons, ← addLine_isOk_iff (s := s)]
    cases hline : s.addLine line with
    | ok t => simp [addLines, hline, ih]
    | error e => simp [addLines, hline]

/-- Reading succeeds exactly if every line can be read, whatever the other lines say. In particular the order of the
lines does not matter, and no line is refused for contradicting another one. -/
theorem ofLines_isOk_iff : (∃ s, ofLines lines = .ok s) ↔ ∀ line ∈ lines, Readable line := by
  have hlines : (∃ t, readLines lines = (t, none)) ↔ ∀ line ∈ lines, Readable line := by
    unfold readLines
    rw [addLines_isOk_iff, ← List.forall_mem_map (f := Prod.fst) (P := Readable), List.zipIdx_map_fst]
  rw [← hlines]
  unfold ofLines
  split
  · next s hread => simp [hread]
  · next e hread => simp [hread]

theorem mem_filterMap_linePolynomial? : p ∈ lines.filterMap linePolynomial? ↔ ∃ cs, some cs ∈ lines ∧
    isSkipped (Text.trim cs) = false ∧ Polynomial.ofChars (Text.trim cs) = .ok p := by
  have hline : ∀ line, linePolynomial? line = some p ↔ ∃ cs, line = some cs ∧
      isSkipped (Text.trim cs) = false ∧ Polynomial.ofChars (Text.trim cs) = .ok p := by
    intro line
    cases line with
    | none => simp [linePolynomial?]
    | some cs =>
      cases hp : Polynomial.ofChars (Text.trim cs) with
      | ok q => simp [linePolynomial?, hp, Except.toOption]
      | error cause => simp [linePolynomial?, hp, Except.toOption]
  rw [List.mem_filterMap]
  simp only [hline]
  constructor
  · intro h
    obtain ⟨line, hmem, cs, hcs, hp⟩ := h
    exact ⟨cs, hcs ▸ hmem, hp⟩
  · intro h
    obtain ⟨cs, hmem, hp⟩ := h
    exact ⟨some cs, hmem, cs, rfl, hp⟩

theorem numVars_ofPolynomials_le_iff {ps : List Polynomial} {n : Nat} :
    (ofPolynomials ps).numVars ≤ n ↔ ∀ p ∈ ps, ∀ v ∈ p.vars, v < n := by
  have hfold : ∀ s : EquationSystem, s.Valid → ((ps.foldl (fun s p => (s.add p).2) s).numVars ≤ n ↔
      s.numVars ≤ n ∧ ∀ p ∈ ps, ∀ v ∈ p.vars, v < n) := by
    induction ps with
    | nil => simp
    | cons p ps ih =>
      intro s hs
      rw [List.foldl_cons, ih _ (hs.add p), numVars_add hs, numVars_reserve_le_iff, List.forall_mem_cons, and_assoc]
  rw [ofPolynomials, hfold empty valid_empty]
  exact and_iff_right (Nat.zero_le n)

/-- The same lines in another order are read as well, into a system over as many variables with the same solutions.
Equations and facts may be stored differently there. -/
theorem ofLines_perm {lines' : List (Option (List Char))} (hread : ofLines lines = .ok s)
    (hperm : lines'.Perm lines) :
    ∃ t, ofLines lines' = .ok t ∧ t.numVars = s.numVars ∧ ∀ a, Solves a t ↔ Solves a s := by
  have hreadable : ∀ line ∈ lines', Readable line := fun line hline =>
    ofLines_isOk_iff.1 ⟨s, hread⟩ line (hperm.mem_iff.1 hline)
  obtain ⟨t, ht⟩ := ofLines_isOk_iff.2 hreadable
  have hmem : ∀ p, p ∈ lines'.filterMap linePolynomial? ↔ p ∈ lines.filterMap linePolynomial? := fun p =>
    (hperm.filterMap _).mem_iff
  refine ⟨t, ht, eq_of_forall_ge_iff fun n => ?_, fun a => ?_⟩
  · rw [ofLines_ok ht, ofLines_ok hread, numVars_ofPolynomials_le_iff, numVars_ofPolynomials_le_iff]
    simp only [hmem]
  · rw [solves_ofLines_iff ht, solves_ofLines_iff hread]
    simp only [hmem]

theorem valid_of_ofLines (hread : ofLines lines = .ok s) : s.Valid := ofLines_ok hread ▸ valid_ofPolynomials _

/-- A vector that is long enough passes the check of a system that was read exactly if every polynomial of the text
vanishes there, although most of these are no longer stored as they were. -/
theorem check_ofLines (hread : ofLines lines = .ok s) (hsize : s.numVars ≤ solution.size) :
    s.check solution = .ok () ↔ ∀ cs, some cs ∈ lines → isSkipped (Text.trim cs) = false →
      ∃ p, Polynomial.ofChars (Text.trim cs) = .ok p ∧ Vanishes solution p := by
  have hvars : ∀ p ∈ lines.filterMap linePolynomial?, ∀ v ∈ p.vars, v < solution.size :=
    numVars_ofPolynomials_le_iff.1 (ofLines_ok hread ▸ hsize)
  rw [check_iff_solves (valid_of_ofLines hread) hsize, solves_ofLines_iff hread]
  constructor
  · intro h cs hcs hskipped
    obtain ⟨cs', heq, hline⟩ := ofLines_isOk_iff.1 ⟨s, hread⟩ _ hcs
    cases heq
    obtain ⟨p, hp, -⟩ := hline.resolve_left (Bool.eq_false_iff.1 hskipped)
    have hmem := mem_filterMap_linePolynomial?.2 ⟨cs, hcs, hskipped, hp⟩
    exact ⟨p, hp, (vanishes_iff (hvars p hmem)).2 (h p hmem)⟩
  · intro h p hmem
    obtain ⟨cs, hcs, hskipped, hp⟩ := mem_filterMap_linePolynomial?.1 hmem
    obtain ⟨q, hq, hvanishes⟩ := h cs hcs hskipped
    cases hp.symm.trans hq
    exact (vanishes_iff (hvars p hmem)).1 hvanishes

end Text

/-- Adding and learning mean what they say. Adding an equation lets those vectors pass that passed before and at which
it vanishes, and so does learning one that changes the system; learning any other changes nothing. A system that was
read from lines lets those vectors pass at which the polynomial of every line vanishes, and so does the system of the
same lines in any other order. -/
theorem check_add_learn_ofLines :
    (∀ s, Reachable s → ∀ (p : Polynomial) (solution : Solution),
      ((s.add p).2.numVars ≤ solution.size →
        ((s.add p).2.check solution = .ok () ↔ s.check solution = .ok () ∧ Vanishes solution p)) ∧
      ((s.learn p).1 = true → (s.learn p).2.numVars ≤ solution.size →
        ((s.learn p).2.check solution = .ok () ↔ s.check solution = .ok () ∧ Vanishes solution p)) ∧
      ((s.learn p).1 = false → ((s.learn p).2.check solution = .ok () ↔ s.check solution = .ok ()))) ∧
    (∀ lines s, ofLines lines = .ok s → ∀ solution : Solution, s.numVars ≤ solution.size →
      (s.check solution = .ok () ↔ ∀ cs, some cs ∈ lines → isSkipped (Text.trim cs) = false →
        ∃ p, Polynomial.ofChars (Text.trim cs) = .ok p ∧ Vanishes solution p) ∧
      ∀ lines', lines'.Perm lines → ∃ t, ofLines lines' = .ok t ∧ t.numVars = s.numVars ∧
        (t.check solution = .ok () ↔ s.check solution = .ok ())) := by
  constructor
  · intro s hs p solution
    refine ⟨check_add hs.valid, check_learn hs.valid, fun hchanged => ?_⟩
    rw [learn_of_not_changed hchanged, check_reserve]
  · intro lines s hread solution hsize
    refine ⟨check_ofLines hread hsize, fun lines' hperm => ?_⟩
    obtain ⟨t, ht, hnum, hsolves⟩ := ofLines_perm hread hperm
    refine ⟨t, ht, hnum, ?_⟩
    rw [check_iff_solves (valid_of_ofLines ht) (hnum ▸ hsize), check_iff_solves (valid_of_ofLines hread) hsize,
      hsolves]

/-- A fact that turns an equation into another fact, beside a learnt polynomial, and a text with a line that is
skipped. -/
theorem check_add_learn_ofLines_absorbed :
    let s := ofPolynomials [.sum [.ofVars [1, 2], .ofVar 3]]
    let p : Polynomial := .sum [.ofVar 1, .one]
    let q : Polynomial := .sum [.ofVar 1, .ofVar 2, .ofVar 3]
    let solution : Solution := #[false, true, true, true]
    let lines := ["x1*x2 + x3".toList, "c a comment".toList, "x1 + 1".toList].map some
    Reachable s ∧ (s.add p).2.numVars ≤ solution.size ∧
    ((s.add p).2.check solution = .ok () ↔ s.check solution = .ok () ∧ Vanishes solution p) ∧
    (s.learn q).1 = true ∧ (s.learn q).2.numVars ≤ solution.size ∧
    ((s.learn q).2.check solution = .ok () ↔ s.check solution = .ok () ∧ Vanishes solution q) ∧
    (s.learn .zero).1 = false ∧ ((s.learn .zero).2.check solution = .ok () ↔ s.check solution = .ok ()) ∧
    ∃ t, ofLines lines = .ok t ∧ t.numVars ≤ solution.size ∧
      (t.check solution = .ok () ↔ ∀ cs, some cs ∈ lines → isSkipped (Text.trim cs) = false →
        ∃ p, Polynomial.ofChars (Text.trim cs) = .ok p ∧ Vanishes solution p) := by
  intro s p q solution lines
  have hs : Reachable s := reachable_ofPolynomials (by decide)
  have hadd : (s.add p).2.numVars ≤ solution.size := by
    rw [numVars_add hs.valid]
    decide
  have hchanged : (s.learn q).1 = true := by decide
  have hlearn : (s.learn q).2.numVars ≤ solution.size := by decide
  have hknown : (s.learn .zero).1 = false := by decide
  have hreadable : ∀ line ∈ lines, Readable line :=
    List.forall_mem_cons.2 ⟨⟨_, rfl, .inr ⟨_, rfl, by decide⟩⟩, List.forall_mem_cons.2 ⟨⟨_, rfl, .inl rfl⟩,
      List.forall_mem_singleton.2 ⟨_, rfl, .inr ⟨_, rfl, by decide⟩⟩⟩⟩
  obtain ⟨t, ht⟩ := ofLines_isOk_iff.2 hreadable
  have hsize : t.numVars ≤ solution.size := by
    have hvars : ∀ p ∈ lines.filterMap linePolynomial?, ∀ v ∈ p.vars.toList, v < 4 := by decide
    exact ofLines_ok ht ▸ numVars_ofPolynomials_le_iff.2 hvars
  obtain ⟨hmeaning, htext⟩ := check_add_learn_ofLines
  exact ⟨hs, hadd, (hmeaning s hs p solution).1 hadd, hchanged, hlearn, (hmeaning s hs q solution).2.1 hchanged hlearn,
    hknown, (hmeaning s hs .zero solution).2.2 hknown, t, ht, hsize, (htext lines t ht solution hsize).1⟩

end EquationSystem

end BoolPoly
