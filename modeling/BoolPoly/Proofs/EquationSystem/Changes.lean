import BoolPoly.Proofs.EquationSystem.Check
import BoolPoly.Proofs.EquationSystem.Rebuilding

namespace BoolPoly

namespace EquationSystem

variable {s t : EquationSystem} {p : Polynomial}

/-- Resolving is a canonical form modulo the recorded facts. The form is about free variables, resolving it again
changes nothing, and sums are resolved part by part. Two polynomials have the same form exactly if they have the same
value under every assignment that obeys the facts; so those that become zero are those that the facts imply. -/
theorem Reachable.resolve_canonical (hs : s.Reachable) :
    (∀ p, ∀ v ∈ (s.resolve p).vars, s.value? v = none ∧ s.replacement? v = none) ∧
    (∀ p, s.resolve (s.resolve p) = s.resolve p) ∧
    (∀ p q, s.resolve (p + q) = s.resolve p + s.resolve q) ∧
    (∀ p q, s.resolve p = s.resolve q ↔ ∀ a, Obeys a s → p.eval a = q.eval a) ∧
    ∀ p, (s.resolve p).isZero = true ↔ ∀ a, Obeys a s → p.eval a = false := by
  have hfacts := hs.valid.facts
  refine ⟨fun p v hv => free_of_mem_vars_resolve hfacts hv, resolve_resolve hfacts, resolve_add hfacts,
    fun p q => resolve_eq_resolve_iff hfacts, fun p => ?_⟩
  have hzero := resolve_eq_resolve_iff hfacts (p := p) (q := .zero)
  simp only [resolve_zero, Polynomial.eval_zero] at hzero
  rw [← hzero]
  exact ⟨Polynomial.eq_zero_of_isZero, fun h => h ▸ rfl⟩

/-- With `x1` known to be one and `x4` replaced by the negation of `x2`, the product of both becomes the latter. -/
theorem Reachable.resolve_canonical_product :
    let s := ofPolynomials [.sum [.ofVar 1, .one], .sum [.ofVar 2, .ofVar 4, .one]]
    s.Reachable ∧ s.resolve (.ofMonomial (.ofVars [1, 4])) = s.resolve (.sum [.ofVar 2, .one]) ∧
    (s.resolve (.sum [.ofVars [1, 4], .ofVar 2, .one])).isZero = true := by
  intro s
  let first := (EquationSystem.empty.reserve (.sum [.ofVar 1, .one])).record (.value 1 true)
  have hfirst : ofPolynomials [.sum [.ofVar 1, .one]] = first :=
    add_of_fresh valid_empty (by decide) (fun _ _ => ⟨rfl, rfl⟩) fun _ hq => absurd hq List.not_mem_nil
  have hfree : ∀ v ∈ (Polynomial.sum [.ofVar 2, .ofVar 4, .one]).vars.toList,
      first.value? v = none ∧ first.replacement? v = none := by decide
  have hsecond : s = (first.reserve (.sum [.ofVar 2, .ofVar 4, .one])).record (.equal 4 ⟨2, true⟩) := by
    have hvalid : first.Valid := hfirst ▸ valid_ofPolynomials _
    rw [← add_of_fresh hvalid (by decide) hfree fun _ hq => absurd hq List.not_mem_nil, ← hfirst]
    rfl
  have hvalue : s.value? 1 = some true := by
    rw [hsecond]
    decide
  have hreplaced : s.replacement? 4 = some ⟨2, true⟩ := by
    rw [hsecond]
    decide
  have hproduct : ∀ a, Obeys a s → (Monomial.ofVars [1, 4]).eval a = !a 2 := by
    intro a ha
    simp [Monomial.eval_ofVars, ha.value hvalue, ha.replacement hreplaced]
  have hs : s.Reachable := reachable_ofPolynomials (by decide)
  obtain ⟨-, -, -, hsame, hzero⟩ := hs.resolve_canonical
  refine ⟨hs, (hsame _ _).2 fun a ha => ?_, (hzero _).2 fun a ha => ?_⟩
  · simp [Polynomial.eval_sum, hproduct a ha]
  · simp [Polynomial.eval_sum, hproduct a ha]

/-- Whether two systems have the same equations, facts and flag. The number of variables is left out: room for further
variables is made in any case, and is no change. -/
structure SameContent (s t : EquationSystem) : Prop where
  equations : t.equations = s.equations
  values : t.values = s.values
  replacements : t.replacements = s.replacements
  consistent : t.consistent = s.consistent

theorem SameContent.free (h : SameContent s t) {v : Var} (hv : s.Free v) : t.Free v := by
  unfold Free value? replacement?
  rw [h.values, h.replacements]
  exact hv

/-- Making room is no change of the content, so that a comparison may be made before or after it. -/
theorem sameContent_reserve_iff : SameContent (s.reserve p) t ↔ SameContent s t :=
  ⟨fun h => ⟨h.equations, h.values, h.replacements, h.consistent⟩,
    fun h => ⟨h.equations, h.values, h.replacements, h.consistent⟩⟩

/-- Taking an equation in answers whether it changes the system, unless it contradicts what is contradictory. Then the
answer is the one for a contradiction, while the content stays the same. -/
theorem Intake.changed_iff {r : Bool × EquationSystem} (h : s.Intake p r) (hs : s.FactsValid)
    (hnew : s.consistent = true ∨ s.resolve p ≠ .one) : r.1 = true ↔ ¬SameContent s r.2 := by
  have hchanged : ∀ {t}, ¬SameContent s t → (true = true ↔ ¬SameContent s t) := fun h => iff_of_true rfl h
  have hkept : false = true ↔ ¬SameContent s s := iff_of_false nofun fun h => h ⟨rfl, rfl, rfl, rfl⟩
  cases h with
  | known h => exact hkept
  | refuted h =>
    apply hchanged
    intro hsame
    have hconsistent := hnew.resolve_right fun hone => hone h
    rw [← hsame.consistent] at hconsistent
    cases hconsistent
  | recorded h =>
    apply hchanged
    intro hsame
    obtain ⟨v, hv⟩ := h.exists_settles
    have hfree : s.Free v := (about_free_of_states hs h).of_settles hv
    -- propagation leaves no variable without its fact
    have hgrow := (absorbs_propagate (absorbs_record hs h).valid).grow
    exact (free_record.1 (hgrow.free (hsame.free hfree))).2 hv
  | repeated h => exact hkept
  | kept hzero hone hfact hnotmem =>
    apply hchanged
    intro hsame
    have hlength := congrArg List.length hsame.equations
    rw [List.length_append, List.length_singleton] at hlength
    omega

/-- The answers of adding and learning tell exactly whether equations, facts or the flag have changed, in a
contradictory system for every polynomial that is not resolved to a contradiction. The number of variables is not
reported: it becomes the least one with room for the polynomial, whatever the answer is. Both calls return as soon as
the variables of the polynomial can be counted. -/
theorem Reachable.reports_changes (hs : s.Reachable) (hp : p.Countable)
    (hnew : s.consistent = true ∨ s.resolve p ≠ .one) :
    (s.addCounted? p = some (s.add p) ∧ ((s.add p).1 = true ↔ ¬SameContent s (s.add p).2) ∧
      ∀ n, (s.add p).2.numVars ≤ n ↔ s.numVars ≤ n ∧ ∀ v ∈ p.vars, v < n) ∧
    s.learnCounted? p = some (s.learn p) ∧ ((s.learn p).1 = true ↔ ¬SameContent s (s.learn p).2) ∧
      ∀ n, (s.learn p).2.numVars ≤ n ↔ s.numVars ≤ n ∧ ∀ v ∈ p.vars, v < n := by
  have hreserve := (hs.valid.reserve p).facts
  refine ⟨⟨addCounted?_eq_some_iff.2 ⟨hp, rfl⟩, ?_, fun n => ?_⟩, learnCounted?_eq_some_iff.2 ⟨hp, rfl⟩, ?_,
    fun n => ?_⟩
  · rw [← sameContent_reserve_iff]
    exact (intake_add s p).changed_iff hreserve hnew
  · rw [numVars_add hs.valid, numVars_reserve_le_iff]
  · rw [← sameContent_reserve_iff]
    cases intake_learn s p with
    | inl hintake => exact hintake.changed_iff hreserve hnew
    | inr hdropped =>
      rw [hdropped]
      exact iff_of_false nofun fun h => h ⟨rfl, rfl, rfl, rfl⟩
  · rw [numVars_learn hs.valid, numVars_reserve_le_iff]

/-- In a contradictory system a replacement is still recorded and reported, beside room for its variable: the flag
stays, and the facts are different afterwards. -/
theorem Reachable.reports_changes_contradictory :
    let s := ofPolynomials [.sum [.ofVars [0, 1], .ofVar 2], .one]
    let p : Polynomial := .sum [.ofVar 2, .ofVar 5]
    s.Reachable ∧ p.Countable ∧ s.consistent = false ∧ s.resolve p ≠ .one ∧
    s.addCounted? p = some (s.add p) ∧ (s.add p).1 = true ∧ ¬SameContent s (s.add p).2 ∧
    s.learnCounted? p = some (s.learn p) ∧ (s.learn p).1 = true ∧ ¬SameContent s (s.learn p).2 ∧
    (s.add p).2.numVars ≤ 6 ∧ ¬(s.learn p).2.numVars ≤ 5 := by
  intro s p
  have hs : s.Reachable := reachable_ofPolynomials (by decide)
  have hnew : s.resolve p ≠ .one := by decide
  have hadded : (s.add p).1 = true := by decide
  have hlearnt : (s.learn p).1 = true := by decide
  have hp : p.Countable := by decide
  obtain ⟨⟨hreturned, hadd, hroom⟩, hreturned', hlearn, hroom'⟩ := hs.reports_changes hp (.inr hnew)
  have hvars : ∀ v ∈ p.vars.toList, v < 6 := by decide
  refine ⟨hs, hp, by decide, hnew, hreturned, hadded, hadd.1 hadded, hreturned', hlearnt, hlearn.1 hlearnt,
    (hroom 6).2 ⟨by decide, hvars⟩, ?_⟩
  intro hle
  have hlast : (5 : Var) ∈ p.vars := by decide
  exact absurd (((hroom' 5).1 hle).2 5 hlast) (by decide)

/-- The answers do not tell whether anything is different: room for further variables is not reported, and a
contradiction is reported again in a system that is contradictory already. For the variable of the greatest index
there is no answer at all, as its room cannot be counted. -/
theorem reports_not_iff_ne :
    let s := ofPolynomials [.sum [.ofVars [1, 2], .ofVar 3, .ofVar 4]]
    let p : Polynomial := .sum [.ofVars [1, 2], .ofVars [5, 6]]
    let t := ofPolynomials [.ofVar 0]
    let q : Polynomial := .ofMonomial (.ofVars [0, 5])
    let u := ofPolynomials [.one]
    s.Reachable ∧ ¬((s.learn p).1 = true ↔ (s.learn p).2 ≠ s) ∧
    t.Reachable ∧ ¬((t.add q).1 = true ↔ (t.add q).2 ≠ t) ∧
    u.Reachable ∧ ¬((u.add .one).1 = true ↔ (u.add .one).2 ≠ u) ∧
      ¬((u.learn .one).1 = true ↔ (u.learn .one).2 ≠ u) ∧
    u.addCounted? (.ofVar 4294967295) = none ∧ u.learnCounted? (.ofVar 4294967295) = none := by
  intro s p t q u
  have ht : t = (empty.reserve (.ofVar 0)).record (.value 0 false) :=
    add_of_fresh valid_empty (by decide) (fun _ _ => ⟨rfl, rfl⟩) fun _ hq => absurd hq List.not_mem_nil
  refine ⟨reachable_ofPolynomials (by decide), by decide, reachable_ofPolynomials (by decide), ?_,
    reachable_ofPolynomials (by decide), by decide, by decide, by decide, by decide⟩
  rw [ht]
  decide

end EquationSystem

end BoolPoly
