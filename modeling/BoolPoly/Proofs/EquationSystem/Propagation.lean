import BoolPoly.Proofs.EquationSystem.Retention
import Mathlib.Data.Finset.Card
import Mathlib.Data.Finset.Range

namespace BoolPoly.EquationSystem

variable {s t : EquationSystem}

instance (s : EquationSystem) : DecidablePred s.Free := fun v =>
  inferInstanceAs (Decidable (s.value? v = none ∧ s.replacement? v = none))

/-- The variables of the system about which nothing is recorded. Their number goes down with every pass that records a
fact, and bounds the number of passes. -/
def freeVars (s : EquationSystem) : Finset Var := (Finset.range s.numVars).filter s.Free

/-- Whether propagation from `s` ends at `t` after `n` passes, all of which but the last one record a fact. The last
pass finds nothing to record. -/
inductive PropagatesIn : Nat → EquationSystem → EquationSystem → Prop
  | last {s : EquationSystem} (h : s.pass.progress = false) : PropagatesIn 1 s s.pass.system
  | again {n : Nat} {s t : EquationSystem} (h : s.pass.progress = true) (hrest : PropagatesIn n s.pass.system t) :
      PropagatesIn (n + 1) s t

/-- An equation that is recorded as a fact settles a variable that was free, also in the middle of a pass or beside a
contradiction, as every equation is resolved before it is looked at. -/
theorem Pass.progress_settle {pass : Pass} (hs : pass.system.FactsValid) {equation : Polynomial}
    (hprogress : (pass.settle equation).progress = true) :
    pass.progress = true ∨ ∃ v, pass.system.Free v ∧ ¬(pass.settle equation).system.Free v := by
  have hsettles := pass.settles_settle equation
  generalize pass.settle equation = result at hsettles hprogress
  cases hsettles with
  | known _ => exact .inl hprogress
  | refuted _ => exact .inl hprogress
  | recorded hfact =>
    obtain ⟨v, hv⟩ := hfact.exists_settles
    have hfree : pass.system.Free v := (about_free_of_states hs hfact).of_settles hv
    exact .inr ⟨v, hfree, fun h => (free_record.1 h).2 hv⟩
  | repeated _ => exact .inl hprogress
  | kept _ _ _ _ => exact .inl hprogress

theorem Pass.progress_foldl_settle {start : Pass} (hs : start.system.FactsValid) (equations : List Polynomial)
    (hprogress : (equations.foldl Pass.settle start).progress = true) :
    start.progress = true ∨ ∃ v, start.system.Free v ∧ ¬(equations.foldl Pass.settle start).system.Free v := by
  induction equations generalizing start with
  | nil => exact .inl hprogress
  | cons equation equations ih =>
    have hfirst := absorbs_settle hs equation
    have hrest := absorbs_foldl_settle _ hfirst.valid equations
    rcases ih hfirst.valid hprogress with hprogress | ⟨v, hfree, hsettled⟩
    · rcases progress_settle hs hprogress with hprogress | ⟨v, hfree, hsettled⟩
      · exact .inl hprogress
      · exact .inr ⟨v, hfree, fun h => hsettled (hrest.grow.free h)⟩
    · exact .inr ⟨v, hfirst.grow.free hfree, hsettled⟩

/-- A pass that records a fact leaves fewer free variables. It may record several facts, and one fact may settle
several variables. -/
theorem card_freeVars_pass (hs : s.FactsValid) (hb : s.Bounded) (hprogress : s.pass.progress = true) :
    s.pass.system.freeVars.card < s.freeVars.card := by
  have hpass := absorbs_pass hs
  have hstart : (⟨{ s with equations := [] }, false⟩ : Pass).system.FactsValid :=
    ⟨hs.value_none, hs.root_lt, hs.root_free⟩
  obtain ⟨v, hfree, hsettled⟩ := (Pass.progress_foldl_settle hstart s.equations hprogress).resolve_left nofun
  have hv : v < s.numVars := by
    by_contra hge
    apply hsettled
    exact (hpass.bounded hb (List.forall_mem_nil _)).free (hpass.numVars.symm ▸ Nat.not_lt.1 hge)
  have hsubset : s.pass.system.freeVars ⊆ s.freeVars := by
    unfold freeVars
    rw [hpass.numVars]
    exact Finset.monotone_filter_right _ fun u _ hu => hpass.grow.free hu
  have hmem : v ∈ s.freeVars := Finset.mem_filter.2 ⟨Finset.mem_range.2 hv, hfree⟩
  have hnot : v ∉ s.pass.system.freeVars := fun h => hsettled (Finset.mem_filter.1 h).2
  exact Finset.card_lt_card ((Finset.ssubset_iff_of_subset hsubset).2 ⟨v, hmem, hnot⟩)

theorem exists_propagatesIn (hs : s.FactsValid) (hb : s.Bounded) :
    ∃ n ≤ s.freeVars.card + 1, PropagatesIn n s s.propagate := by
  induction s using propagate.induct with
  | case1 s hprogress _ ih =>
    have hpass := absorbs_pass hs
    obtain ⟨n, hn, hrest⟩ := ih hpass.valid (hpass.bounded hb (List.forall_mem_nil _))
    have hfewer := card_freeVars_pass hs hb hprogress
    rw [propagate_of_progress hprogress]
    exact ⟨n + 1, by omega, .again hprogress hrest⟩
  | case2 s hprogress =>
    rw [propagate_of_not_progress hprogress]
    exact ⟨1, Nat.le_add_left 1 _, .last (Bool.not_eq_true _ ▸ hprogress)⟩

/-- Whatever equations over the variables of the system are stored beside valid facts, propagation ends after at most
one pass more than there are free variables. Every equation is then resolved, nonzero and no fact, and stored once,
and every equation from before is resolved to zero or to a stored one. -/
theorem propagate_settles (hs : s.FactsValid) (hb : s.Bounded) :
    (∃ n ≤ s.freeVars.card + 1, PropagatesIn n s s.propagate) ∧
    (∀ p ∈ s.propagate.equations,
      s.propagate.resolve p = p ∧ p ≠ .zero ∧ Fact.ofPolynomial? p = none ∧ s.propagate.equations.count p = 1) ∧
    ∀ p ∈ s.equations, s.propagate.resolve p = .zero ∨ s.propagate.resolve p ∈ s.propagate.equations := by
  have hfacts := (absorbs_propagate hs).valid
  have hsettled := settled_propagate hs
  refine ⟨exists_propagatesIn hs hb, fun p hp => ?_, fun p hp => ?_⟩
  · exact ⟨resolve_of_free (hsettled.free hp), hsettled.ne_zero hp, hsettled.no_fact hp,
      List.count_eq_one_of_mem hsettled.nodup hp⟩
  · exact ((retains_propagate hs).reduces (reducesTo_of_mem hp)).resolve hfacts hsettled

/-- With `x1` replaced by `x0`, the second equation replaces `x2` and the third one gives all three the value one,
which the fourth contradicts. Only then does the first equation say that `x3` and `x4` are equal, which is recorded in
spite of the contradiction. -/
theorem propagate_settles_contradictory :
    let s : EquationSystem := { empty.record (.equal 1 ⟨0, false⟩) with
      numVars := 5
      equations := [.sum [.ofVars [2, 3], .ofVar 4], .sum [.ofVars [0, 1], .ofVar 2], .sum [.ofVar 0, .one], .ofVar 1] }
    s.FactsValid ∧ s.Bounded ∧ s.freeVars = {0, 2, 3, 4} ∧ (∃ n ≤ 5, PropagatesIn n s s.propagate) ∧
    (∀ p ∈ s.propagate.equations,
      s.propagate.resolve p = p ∧ p ≠ .zero ∧ Fact.ofPolynomial? p = none ∧ s.propagate.equations.count p = 1) ∧
    ∀ p ∈ s.equations, s.propagate.resolve p = .zero ∨ s.propagate.resolve p ∈ s.propagate.equations := by
  intro s
  have hempty : ∀ v, empty.Free v := fun _ => ⟨rfl, rfl⟩
  have hfact : (Fact.equal 1 ⟨0, false⟩).About empty.Free := ⟨hempty 1, hempty 0, by decide⟩
  have hrecorded := valid_empty.facts.record hfact
  have hs : s.FactsValid := ⟨hrecorded.value_none, hrecorded.root_lt, hrecorded.root_free⟩
  have hvars : ∀ p ∈ s.equations, ∀ v ∈ p.vars.toList, v < 5 := by decide
  have hb : s.Bounded := by
    refine ⟨fun hp => hvars _ hp, fun {v} hv => free_record.2 ⟨hempty v, ?_⟩⟩
    rintro rfl
    exact absurd hv (by decide)
  have hcard : s.freeVars = {0, 2, 3, 4} := by decide
  obtain ⟨⟨n, hn, hpasses⟩, hsettled, hkept⟩ := propagate_settles hs hb
  rw [hcard] at hn
  exact ⟨hs, hb, hcard, ⟨n, hn, hpasses⟩, hsettled, hkept⟩

end BoolPoly.EquationSystem
