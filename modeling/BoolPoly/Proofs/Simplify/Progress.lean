import BoolPoly.Proofs.EquationSystem.Changes
import BoolPoly.Proofs.EquationSystem.Retention
import BoolPoly.Proofs.Simplify.Outcome

namespace BoolPoly.EquationSystem

variable {s t u : EquationSystem} {m n : Nat} {p : Polynomial}

theorem Later.trans (hst : s.Later t) (htu : t.Later u) : s.Later u := by
  induction htu with
  | refl => exact hst
  | add _ p ih => exact ih.add p
  | learn _ p ih => exact ih.learn p

theorem SameContent.eq (h : SameContent s t) (hnum : t.numVars = s.numVars) : t = s := by
  obtain ⟨⟩ := s
  obtain ⟨⟩ := t
  obtain ⟨rfl, rfl, rfl, rfl⟩ := h
  cases hnum
  rfl

/-- Whether `t` is `s` after polynomials about its variables were learnt, of which `n` were counted. The first one
that is counted finds the system as it was. Nothing is assumed about where the polynomials come from. -/
structure Counts (s : EquationSystem) (n : Nat) (t : EquationSystem) : Prop where
  later : s.Later t
  numVars : t.numVars = s.numVars
  eq : n = 0 → t = s
  exists_learnt : 0 < n → ∃ p, (s.learn p).1 = true ∧ (s.learn p).2.Later t

theorem Counts.refl (s : EquationSystem) : s.Counts 0 s := ⟨.refl, rfl, fun _ => rfl, nofun⟩

theorem Counts.trans (hst : s.Counts m t) (htu : t.Counts n u) : s.Counts (m + n) u where
  later := hst.later.trans htu.later
  numVars := htu.numVars.trans hst.numVars
  eq hzero := by
    obtain ⟨hm, hn⟩ := Nat.add_eq_zero_iff.1 hzero
    exact (htu.eq hn).trans (hst.eq hm)
  exists_learnt hpos := by
    cases m with
    | zero =>
      rw [Nat.zero_add] at hpos
      obtain rfl := hst.eq rfl
      exact htu.exists_learnt hpos
    | succ m =>
      obtain ⟨p, hlearnt, hlater⟩ := hst.exists_learnt (Nat.succ_pos m)
      exact ⟨p, hlearnt, hlater.trans htu.later⟩

theorem counts_learn (hs : s.Valid) (hp : ∀ v ∈ p.vars, v < s.numVars) :
    s.Counts (s.learn p).1.toNat (s.learn p).2 where
  later := Later.refl.learn p
  numVars := by rw [numVars_learn hs, reserve_of_lt hp]
  eq hzero := by
    rw [learn_of_not_changed (Bool.toNat_eq_zero.1 hzero), reserve_of_lt hp]
  exists_learnt hpos := by
    refine ⟨p, Bool.of_not_eq_false fun hdropped => ?_, .refl⟩
    rw [hdropped] at hpos
    cases hpos

theorem counts_learnAll (hs : s.Valid) {ps : List Polynomial} (hps : ∀ p ∈ ps, ∀ v ∈ p.vars, v < s.numVars) :
    s.Counts (s.learnAll ps).1 (s.learnAll ps).2 := by
  refine List.foldlRecOn (motive := fun learnt : Nat × EquationSystem => s.Counts learnt.1 learnt.2) ps _ (.refl s)
    fun learnt hlearnt p hp => ?_
  exact hlearnt.trans (counts_learn (hlearnt.later.valid hs) (hlearnt.numVars.symm ▸ hps p hp))

variable {given : EquationSystem} {config : Config} {solver : Solver} {e : Encoding} {report : Report}

theorem counts_learnReport (hs : s.Valid) (he : Encoding.ofSystem s config = .ok e) (report : Report) :
    s.Counts (s.learnReport e report).1 (s.learnReport e report).2 := by
  refine List.foldlRecOn (motive := fun learnt : Nat × EquationSystem => s.Counts learnt.1 learnt.2) Stage.pipeline _
    (.refl s) fun learnt hlearnt stage _ => ?_
  have hlt : ∀ p ∈ e.candidates report learnt.2 stage, ∀ v ∈ p.vars, v < learnt.2.numVars := fun p hp =>
    hlearnt.numVars.symm ▸ lt_of_mem_candidates hs he hp
  exact hlearnt.trans (counts_learnAll (hlearnt.later.valid hs) hlt)

/-- What was counted is known afterwards, so that learning it again would not be counted. So the system never comes
back to what it was, and one that is as it was has learnt nothing. -/
theorem Counts.eq_zero_iff (h : s.Counts n t) (hs : s.Valid) (hconsistent : s.consistent = true) :
    n = 0 ↔ SameContent s t := by
  constructor
  · intro hzero
    rw [h.eq hzero]
    exact ⟨rfl, rfl, rfl, rfl⟩
  · intro hsame
    by_contra hne
    obtain ⟨p, hlearnt, hlater⟩ := h.exists_learnt (Nat.pos_of_ne_zero hne)
    -- the first counted polynomial was learnt by the very system that knows it in the end
    obtain rfl := hsame.eq h.numVars
    have hknows := ((remembers_learn hs p).2 hlearnt).later (hlater.remembers (hs.learn p))
    obtain ⟨-, hagain⟩ := hknows.add_learn hs hconsistent
    rw [hagain] at hlearnt
    cases hlearnt

/-- An answer with a number of facts counts those that were learnt from the report, whether they follow from the query
or not. -/
theorem conclude_learnt {count : Nat} {solution : Option Solution}
    (h : s.conclude given e report = (t, .ok (.learnt count solution))) : s.learnReport e report = (count, t) := by
  rw [conclude] at h
  split at h
  · cases h
  · dsimp only at h
    split at h
    · cases h
    · obtain ⟨rfl, hanswer⟩ := Prod.mk.inj h
      rw [solutionOf] at hanswer
      split at hanswer
      · cases hanswer
        rfl
      · cases hanswer
    · cases h
      rfl

/-- The number of learnt facts tells exactly whether there was any progress, for every solver. Whatever facts it
reports, the number is zero just if equations, values, replacements and the flag are what they were before, and the
number of variables never changes. -/
theorem Reachable.learnt_eq_zero_iff (hs : s.Reachable) {count : Nat} {solution : Option Solution}
    (hresult : (s.simplify given config solver).result = .ok (.learnt count solution)) :
    (count = 0 ↔ SameContent s (s.simplify given config solver).system) ∧
    (s.simplify given config solver).system.numVars = s.numVars := by
  cases hconsistent : s.consistent with
  | false =>
    rw [simplify_of_inconsistent hconsistent] at hresult
    cases hresult
  | true =>
    obtain ⟨e, report, he, hreport⟩ := exists_report hconsistent hresult
    rw [simplify_of_report hconsistent he hreport] at hresult ⊢
    dsimp only at hresult ⊢
    have hconclude : s.conclude given e report = ((s.conclude given e report).1, .ok (.learnt count solution)) :=
      Prod.ext rfl hresult
    have hcounts := counts_learnReport hs.valid he report
    rw [conclude_learnt hconclude] at hcounts
    exact ⟨hcounts.eq_zero_iff hs.valid hconsistent, hcounts.numVars⟩

/-- Facts about variables beyond the query, and the one that a product is zero, are not taken over; a value of `x0`
that does not follow is taken over, and counted once. -/
theorem Reachable.learnt_eq_zero_iff_wrong :
    let s := ofPolynomials [.sum [.ofVars [1, 2], .ofVar 3], .sum [.ofVars [0, 1], .ofVar 2, .ofVar 3]]
    let config : Config := { tableCutoff := 0 }
    let reporting (units : List Literal) : Solver := fun _ =>
      .ok ⟨.undetermined, none, units, [(⟨88, true⟩, ⟨2, false⟩)], [⟨[1, 77], true⟩], []⟩
    let idle := s.simplify s config (reporting [⟨99, true⟩, ⟨4, false⟩])
    let wrong := s.simplify s config (reporting [⟨99, true⟩, ⟨0, true⟩, ⟨0, true⟩])
    idle.result = .ok (.learnt 0 none) ∧ SameContent s idle.system ∧
    wrong.result = .ok (.learnt 1 none) ∧ ¬SameContent s wrong.system ∧ wrong.system.numVars = s.numVars := by
  intro s config reporting idle wrong
  have hs : s.Reachable := reachable_ofPolynomials (by decide)
  have hidle : idle.result = .ok (.learnt 0 none) := by
    simp only [idle, reporting, config, s]
    cbv
  have hwrong : wrong.result = .ok (.learnt 1 none) := by
    simp only [wrong, reporting, config, s]
    cbv
  obtain ⟨hsame, -⟩ := hs.learnt_eq_zero_iff hidle
  obtain ⟨hchanged, hnum⟩ := hs.learnt_eq_zero_iff hwrong
  exact ⟨hidle, hsame.1 rfl, hwrong, fun h => Nat.one_ne_zero (hchanged.2 h), hnum⟩

end BoolPoly.EquationSystem
