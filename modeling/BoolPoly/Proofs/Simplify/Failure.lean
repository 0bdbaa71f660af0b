import BoolPoly.Proofs.Simplify.Outcome

namespace BoolPoly.EquationSystem

open Encoding (ChunksFit TooWide refusal?)

variable {s given : EquationSystem} {config : Config} {solver : Solver}

theorem simplify_of_encodingError (h : s.consistent = true) {err : EncodingError}
    (herr : Encoding.ofSystem s config = .error err) :
    s.simplify given config solver = { system := s, query? := none, result := .error (.encoding err) } := by
  simp only [simplify, h, if_true, herr]

theorem simplify_of_solverError (h : s.consistent = true) {e : Encoding} (he : Encoding.ofSystem s config = .ok e)
    {err : SolverError} (herr : solver (queryOf e config) = .error err) : s.simplify given config solver =
      { system := s, query? := some (queryOf e config), result := .error (.solver err) } := by
  simp only [simplify, h, if_true, he, herr]

/-- After an answer of the solver, only its model can be wrong. Everything else about the answer is taken as it is. -/
theorem conclude_error {e : Encoding} {report : Report} {err : SimplifyError}
    (h : (s.conclude given e report).2 = .error err) : err = .missingModel ∨ ∃ cause, err = .solution cause := by
  rw [conclude] at h
  split at h
  · cases h
  · dsimp only at h
    split at h
    · cases h
      exact .inl rfl
    · rw [solutionOf] at h
      dsimp only at h
      split at h
      · cases h
      · cases h
        exact .inr ⟨_, rfl⟩
    · cases h

/-- The error of a simplification is the one of the encoding just if encoding fails, and the one of the solver just if
the solver fails on the query. A contradictory system is not encoded at all. -/
theorem simplify_error_iff (h : s.consistent = true) (given : EquationSystem) (solver : Solver) :
    (∀ err, (s.simplify given config solver).result = .error (.encoding err) ↔
      Encoding.ofSystem s config = .error err) ∧
    ∀ err, (s.simplify given config solver).result = .error (.solver err) ↔
      ∃ e, Encoding.ofSystem s config = .ok e ∧ solver (queryOf e config) = .error err := by
  cases he : Encoding.ofSystem s config with
  | error cause =>
    rw [simplify_of_encodingError h he]
    simp
  | ok e =>
    cases hanswer : solver (queryOf e config) with
    | error cause =>
      rw [simplify_of_solverError h he hanswer]
      simp [hanswer]
    | ok report =>
      rw [simplify_of_report h he hanswer]
      constructor
      · intro err
        refine iff_of_false (fun hresult => ?_) nofun
        obtain hcause | ⟨cause, hcause⟩ := conclude_error hresult <;> cases hcause
      · intro err
        refine iff_of_false (fun hresult => ?_) ?_
        · obtain hcause | ⟨cause, hcause⟩ := conclude_error hresult <;> cases hcause
        · rintro ⟨e', he', herr⟩
          cases he'
          cases hanswer.symm.trans herr

/-- With short chunks, what is refused first is the first equation that is too wide: no other reason is left. -/
theorem findSome?_refusal? {ps : List Polynomial} (hchunks : ∀ p ∈ ps, ChunksFit config p) :
    ps.findSome? (refusal? config) = (ps.find? (TooWide config ·)).map fun p =>
      .table (.capacityExceeded p p.vars.size config.tableCapacity) := by
  induction ps with
  | nil => rfl
  | cons p ps ih =>
    obtain ⟨hp, hps⟩ := List.forall_mem_cons.1 hchunks
    rw [List.findSome?_cons, refusal?]
    by_cases hwide : TooWide config p
    · rw [if_pos hwide, List.find?_cons_of_pos (by simpa using hwide)]
      rfl
    · rw [if_neg hwide, if_pos hp, List.find?_cons_of_neg (by simpa using hwide)]
      exact ih hps

/-- Encoding a reachable system with chunks of fewer than 64 variables fails by the configured bounds alone: by a
capacity above `24`, or else at the first equation of degree above one with more variables than the capacity but no
more than the cutoff. It fails in no other way. When it fails, simplification of a consistent system fails in the same
way and asks the solver nothing; when the solver fails, simplification fails with the solver's error. The system stays
as it was in both cases. -/
theorem Reachable.encoding_and_solver_errors (hs : s.Reachable) (hchunks : ∀ p ∈ s.equations, ChunksFit config p) :
    (∀ capacity, Encoding.ofSystem s config = .error (.table (.unsupportedCapacity capacity)) ↔
      capacity = config.tableCapacity ∧ 24 < config.tableCapacity) ∧
    (∀ p width capacity, Encoding.ofSystem s config = .error (.table (.capacityExceeded p width capacity)) ↔
      config.tableCapacity ≤ 24 ∧ s.equations.find? (TooWide config ·) = some p ∧ width = p.vars.size ∧
        capacity = config.tableCapacity) ∧
    ((∃ e, Encoding.ofSystem s config = .ok e) ↔
      config.tableCapacity ≤ 24 ∧ ∀ p ∈ s.equations, ¬TooWide config p) ∧
    (s.consistent = true → ∀ (given : EquationSystem) (solver : Solver),
      (∀ err, (s.simplify given config solver).result = .error (.encoding err) ↔
        Encoding.ofSystem s config = .error err) ∧
      (∀ err, (s.simplify given config solver).result = .error (.solver err) ↔
        ∃ e, Encoding.ofSystem s config = .ok e ∧ solver (queryOf e config) = .error err) ∧
      (∀ err, (s.simplify given config solver).result = .error (.encoding err) →
        (s.simplify given config solver).system = s ∧ (s.simplify given config solver).query? = none) ∧
      ∀ err, (s.simplify given config solver).result = .error (.solver err) →
        (s.simplify given config solver).system = s) := by
  have hbounded : ∀ p ∈ s.equations, ∀ v ∈ p.vars, v < s.numVars := fun p hp => hs.valid.bounded.equation hp
  have hmax : Karnaugh.maxCapacity = 24 := rfl
  have hcases := Encoding.ofSystem_cases config hbounded
  rw [hmax, findSome?_refusal? hchunks] at hcases
  refine ⟨fun capacity => ?_, fun p width capacity => ?_, ?_, fun hconsistent given solver => ?_⟩
  · obtain ⟨habove, herror⟩ | ⟨hle, err, hfind, herror⟩ | ⟨hle, -, e, hok⟩ := hcases
    · simpa [herror, eq_comm] using fun _ => habove
    · obtain ⟨p, -, rfl⟩ := Option.map_eq_some_iff.1 hfind
      simpa [herror] using fun _ => hle
    · simpa [hok] using fun _ => hle
  · obtain ⟨habove, herror⟩ | ⟨hle, err, hfind, herror⟩ | ⟨-, hfind, e, hok⟩ := hcases
    · simpa [herror] using fun hle => absurd hle (Nat.not_le.2 habove)
    · obtain ⟨q, hq, rfl⟩ := Option.map_eq_some_iff.1 hfind
      rw [herror, hq]
      constructor
      · rintro ⟨⟩
        exact ⟨hle, rfl, rfl, rfl⟩
      · rintro ⟨-, ⟨⟩, rfl, rfl⟩
        rfl
    · simp [hok, Option.map_eq_none_iff.1 hfind]
  · rw [Encoding.ofSystem_isOk_iff hbounded, Encoding.admits_iff, hmax]
    exact and_congr_right fun _ => and_iff_left hchunks
  · obtain ⟨hencoding, hsolver⟩ := simplify_error_iff hconsistent given solver
    refine ⟨hencoding, hsolver, fun err herr => ?_, fun err herr => ?_⟩
    · rw [simplify_of_encodingError hconsistent ((hencoding err).1 herr)]
      exact ⟨rfl, rfl⟩
    · obtain ⟨e, he, herr⟩ := (hsolver err).1 herr
      rw [simplify_of_solverError hconsistent he herr]

/-- A table for three variables: `x0*x1 + x2` goes through it, the sum of five variables is linear, and the next
equation is the first of two that have a variable too many. -/
theorem Reachable.encoding_and_solver_errors_narrow :
    let s := ofPolynomials [.sum [.ofVars [0, 1], .ofVar 2], .sum [.ofVar 0, .ofVar 1, .ofVar 2, .ofVar 3, .ofVar 4],
      .sum [.ofVars [0, 1], .ofVar 2, .ofVar 3], .sum [.ofVars [0, 1], .ofVar 2, .ofVar 4]]
    let config : Config := { tableCapacity := 3 }
    s.Reachable ∧ (∀ p ∈ s.equations, ChunksFit config p) ∧
    ∀ solver : Solver, (s.simplify s config solver).system = s ∧ (s.simplify s config solver).query? = none ∧
      (s.simplify s config solver).result =
        .error (.encoding (.table (.capacityExceeded (.sum [.ofVars [0, 1], .ofVar 2, .ofVar 3]) 4 3))) := by
  intro s config
  have hs : s.Reachable := reachable_ofPolynomials (by decide)
  have hchunks : ∀ p ∈ s.equations, ChunksFit config p := by decide
  refine ⟨hs, hchunks, fun solver => ?_⟩
  obtain ⟨-, hexceeded, -, hsimplify⟩ := hs.encoding_and_solver_errors hchunks
  obtain ⟨hencoding, -, hsame, -⟩ := hsimplify (by decide) s solver
  have hfind : s.equations.find? (TooWide config ·) = some (.sum [.ofVars [0, 1], .ofVar 2, .ofVar 3]) := by decide
  have herror := (hencoding _).2 ((hexceeded _ 4 3).2 ⟨by decide, hfind, by decide, rfl⟩)
  obtain ⟨hsystem, hquery⟩ := hsame _ herror
  exact ⟨hsystem, hquery, herror⟩

end BoolPoly.EquationSystem
