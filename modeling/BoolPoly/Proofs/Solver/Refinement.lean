import BoolPoly.Proofs.Solver.Exactness
import Mathlib.Data.Finset.Card

namespace BoolPoly

namespace Probing

section Classes

variable {first : Array Bool} {models : List (Array Bool)} {free : List Var} {u v : Var}

/-- In which of the models the value of a variable differs from its value in the first one. Variables that go together
are those of one signature. -/
def signature (first : Array Bool) (models : List (Array Bool)) (v : Var) : List Bool :=
  models.map fun m => valueAt m v ^^ valueAt first v

/-- The number of signatures that the free variables have, which is at most the number of these variables. -/
def numClasses (first : Array Bool) (models : List (Array Bool)) (free : List Var) : Nat :=
  (free.toFinset.image (signature first models)).card

theorem signature_eq_iff :
    signature first models u = signature first models v ↔ together first models u v = true := by
  unfold signature together
  rw [List.map_inj_left, List.all_eq_true]
  refine forall₂_congr fun m _ => ?_
  rw [beq_iff_eq]
  cases valueAt m u <;> cases valueAt m v <;> cases valueAt first u <;> cases valueAt first v <;> decide

theorem numClasses_le (first : Array Bool) (models : List (Array Bool)) (free : List Var) :
    numClasses first models free ≤ free.length :=
  Finset.card_image_le.trans (List.toFinset_card_le free)

theorem numClasses_pos (first : Array Bool) (models : List (Array Bool)) (h : free ≠ []) :
    0 < numClasses first models free :=
  Finset.card_pos.2 (((List.toFinset_nonempty_iff free).2 h).image _)

/-- A model that sets apart two variables of one class leaves more classes, because it sets no two variables together
that were apart. -/
theorem numClasses_lt_cons {m : Array Bool} (hu : u ∈ free) (hv : v ∈ free)
    (htogether : together first models u v = true) (hapart : together first (m :: models) u v = false) :
    numClasses first models free < numClasses first (m :: models) free := by
  have himage : free.toFinset.image (signature first models) =
      (free.toFinset.image (signature first (m :: models))).image List.tail := by
    rw [Finset.image_image]
    rfl
  have hmem : ∀ w ∈ free, signature first (m :: models) w ∈ free.toFinset.image (signature first (m :: models)) :=
    fun w hw => Finset.mem_image_of_mem _ (List.mem_toFinset.2 hw)
  unfold numClasses
  rw [himage]
  refine Nat.lt_of_le_of_ne Finset.card_image_le fun hcard => ?_
  -- without the latest model, `u` and `v` have one signature
  have hsame := Finset.card_image_iff.1 hcard (hmem u hu) (hmem v hv) (signature_eq_iff.2 htogether)
  rw [signature_eq_iff, hapart] at hsame
  cases hsame

end Classes

section Refinement

variable {M : (Var → Bool) → Prop} {first : Array Bool} {free : List Var} {start s t : State}
  {tested : List (Var × Var)} {pair : Var × Var}

/-- Whether a correct oracle may give the answer to additional assumptions: a model of them in `M`, and none only if
there is none. The same question may be answered differently another time. -/
def Admits (M : (Var → Bool) → Prop) (extra : List Literal) : Option (Array Bool) → Prop
  | some m => M (valueAt m) ∧ ∀ l ∈ extra, l.holds (valueAt m) = true
  | none => ∀ a, M a → ¬∀ l ∈ extra, l.holds a = true

/-- The assumptions that set a pair apart, with the given value of its first variable. How the two go together is read
off the first model. -/
def question (first : Array Bool) (pair : Var × Var) (b : Bool) : List Literal :=
  apart pair.1 pair.2 (valueAt first pair.1 ^^ valueAt first pair.2) b

/-- One test of a pair, with any answers of a correct oracle. The second question is asked only if there is no model
for the first. -/
inductive Tests (M : (Var → Bool) → Prop) (first : Array Bool) (pair : Var × Var) (s : State) : State → Prop
  | below {below : Option (Array Bool)} (hbelow : Admits M (question first pair false) below)
      (hsome : below.isSome = true) : Tests M first pair s (s.spend below)
  | above {below above : Option (Array Bool)} (hbelow : Admits M (question first pair false) below)
      (hnone : ¬below.isSome = true) (habove : Admits M (question first pair true) above) :
      Tests M first pair s ((s.spend below).spend above)

/-- The states that the refinement passes through without a limit to the questions, with the pairs it has tested, for
any answers of a correct oracle. -/
inductive Refines (M : (Var → Bool) → Prop) (first : Array Bool) (free : List Var) (start : State) :
    List (Var × Var) → State → Prop
  | start : Refines M first free start [] start
  | test {tested : List (Var × Var)} {s t : State} {pair : Var × Var} (hrun : Refines M first free start tested s)
      (hnext : nextPair? first s.models free tested = some pair) (htest : Tests M first pair s t) :
      Refines M first free start (pair :: tested) t

theorem Admits.together_eq_false {b : Bool} {m : Array Bool} (h : Admits M (question first pair b) (some m))
    (models : List (Array Bool)) : together first (m :: models) pair.1 pair.2 = false :=
  not_together_of_apart h.2 models

theorem Admits.linked (hbelow : Admits M (question first pair false) none)
    (habove : Admits M (question first pair true) none) :
    Linked M pair.2 pair.1 (valueAt first pair.1 ^^ valueAt first pair.2) := by
  refine linked_of_not_apart fun b a ha => ?_
  cases b with
  | false => exact hbelow a ha
  | true => exact habove a ha

theorem Tests.asked (h : Tests M first pair s t) : s.asked < t.asked ∧ t.asked ≤ s.asked + 2 := by
  cases h with
  | below => exact ⟨Nat.lt_succ_self _, Nat.le_succ _⟩
  | above => exact ⟨Nat.lt_add_of_pos_right Nat.two_pos, Nat.le_refl _⟩

/-- A test adds a model that sets the pair apart, or it adds none and the pair is linked. There is no third case for a
correct oracle. -/
theorem Tests.models_cases (h : Tests M first pair s t) :
    (∃ m, t.models = m :: s.models ∧ M (valueAt m) ∧ together first (m :: s.models) pair.1 pair.2 = false) ∨
    (t.models = s.models ∧ ∃ c, Linked M pair.2 pair.1 c) := by
  cases h with
  | below hbelow hsome =>
    obtain ⟨m, rfl⟩ := Option.isSome_iff_exists.1 hsome
    exact .inl ⟨m, rfl, hbelow.1, hbelow.together_eq_false s.models⟩
  | @above below above hbelow hnone habove =>
    obtain rfl := Option.not_isSome_iff_eq_none.1 hnone
    cases above with
    | some m => exact .inl ⟨m, rfl, habove.1, habove.together_eq_false s.models⟩
    | none => exact .inr ⟨rfl, _, hbelow.linked habove⟩

theorem together_of_nextPair? {models : List (Array Bool)} (h : nextPair? first models free tested = some pair) :
    together first models pair.1 pair.2 = true := by
  obtain ⟨v, -, hv⟩ := List.exists_of_findSome?_eq_some h
  split at hv
  · next u hfind =>
    split at hv
    · cases hv
    · cases hv
      have htogether := List.find?_some hfind
      exact htogether
  · cases hv

/-- Every model that sets the next pair apart splits a class, since the two went together before. -/
theorem Admits.numClasses_lt {models : List (Array Bool)} (hnext : nextPair? first models free tested = some pair)
    {b : Bool} {m : Array Bool} (h : Admits M (question first pair b) (some m)) :
    numClasses first models free < numClasses first (m :: models) free := by
  obtain ⟨hfst, hsnd, -⟩ := nextPair?_spec hnext
  exact numClasses_lt_cons hfst hsnd (together_of_nextPair? hnext) (h.together_eq_false models)

/-- The tested pairs that no model sets apart. As a test has found no model for them, they are linked. -/
def kept (first : Array Bool) (models : List (Array Bool)) (tested : List (Var × Var)) : List (Var × Var) :=
  tested.filter fun pair => together first models pair.1 pair.2

/-- Later models set no tested pair apart, unless it was before. -/
theorem Explored.kept_cons (hfirst : M (valueAt first)) {m : Array Bool} {models : List (Array Bool)}
    (h : Explored M first models tested) (hmodels : ∀ k ∈ m :: models, M (valueAt k)) :
    kept first (m :: models) tested = kept first models tested := by
  refine List.filter_congr fun pair hpair => ?_
  cases h pair hpair with
  | inl hlinked =>
    obtain ⟨c, hc⟩ := hlinked
    obtain ⟨-, hbefore⟩ := List.forall_mem_cons.1 hmodels
    rw [together_of_linked hfirst hmodels hc, together_of_linked hfirst hbefore hc]
  | inr hapart => rw [hapart, together_cons_eq_false hapart m]

/-- What holds of every state of the refinement. The first of a tested pair was the smallest variable of the class of
the second, and stays so; every test has split a class or has found a pair that is kept. -/
structure Refined (M : (Var → Bool) → Prop) (first : Array Bool) (free : List Var) (start : State)
    (tested : List (Var × Var)) (s : State) : Prop where
  models : ∀ m ∈ s.models, M (valueAt m)
  explored : Explored M first s.models tested
  nodup : tested.Nodup
  mem : ∀ pair ∈ tested, pair.1 ∈ free ∧ pair.2 ∈ free
  smallest : ∀ pair ∈ tested, ∀ w ∈ free, w < pair.1 → together first s.models w pair.2 = false
  asked_le : s.asked ≤ start.asked + 2 * tested.length
  length_le : tested.length + numClasses first start.models free ≤
    numClasses first s.models free + (kept first s.models tested).length

theorem Refined.of_start (hmodels : ∀ m ∈ start.models, M (valueAt m)) : Refined M first free start [] start where
  models := hmodels
  explored := List.forall_mem_nil _
  nodup := List.nodup_nil
  mem := List.forall_mem_nil _
  smallest := List.forall_mem_nil _
  asked_le := Nat.le_refl _
  length_le := by simp [kept]

theorem Refined.test (hfirst : M (valueAt first)) (hsorted : free.Pairwise (· < ·))
    (h : Refined M first free start tested s) (hnext : nextPair? first s.models free tested = some pair)
    (htest : Tests M first pair s t) : Refined M first free start (pair :: tested) t := by
  obtain ⟨hfst, hsnd, hnew⟩ := nextPair?_spec hnext
  obtain ⟨-, hsmallest⟩ := lt_of_nextPair? hsorted hnext
  have hsmallest := List.forall_mem_cons.2 ⟨hsmallest, h.smallest⟩
  have hnodup := List.nodup_cons.2 ⟨hnew, h.nodup⟩
  have hmem := List.forall_mem_cons.2 ⟨⟨hfst, hsnd⟩, h.mem⟩
  have hcount := h.length_le
  have hasked : t.asked ≤ start.asked + 2 * (pair :: tested).length := by
    obtain ⟨-, hle⟩ := htest.asked
    have hbefore := h.asked_le
    rw [List.length_cons]
    omega
  cases htest.models_cases with
  | inl hsplit =>
    obtain ⟨m, hm, hmM, hapart⟩ := hsplit
    have hmodels : ∀ k ∈ m :: s.models, M (valueAt k) := List.forall_mem_cons.2 ⟨hmM, h.models⟩
    refine ⟨hm ▸ hmodels, ?_, hnodup, hmem, ?_, hasked, ?_⟩
    · rw [hm]
      exact List.forall_mem_cons.2 ⟨.inr hapart, h.explored.cons_model (some m)⟩
    · intro p hp w hw hlt
      rw [hm]
      exact together_cons_eq_false (hsmallest p hp w hw hlt) m
    · have hlt := numClasses_lt_cons hfst hsnd (together_of_nextPair? hnext) hapart
      have hkept : (kept first t.models (pair :: tested)).length = (kept first s.models tested).length := by
        rw [hm, kept, List.filter_cons_of_neg (by simp [hapart]), ← h.explored.kept_cons hfirst hmodels, kept]
      rw [hkept, hm, List.length_cons]
      omega
  | inr hproved =>
    obtain ⟨hm, c, hc⟩ := hproved
    have hkept : kept first s.models (pair :: tested) = pair :: kept first s.models tested :=
      List.filter_cons_of_pos (together_of_linked hfirst h.models hc)
    refine ⟨hm ▸ h.models, ?_, hnodup, hmem, hm ▸ hsmallest, hasked, ?_⟩
    · rw [hm]
      exact List.forall_mem_cons.2 ⟨.inl ⟨c, hc⟩, h.explored⟩
    · rw [hm, hkept, List.length_cons, List.length_cons]
      omega

theorem Refines.refined (hfirst : M (valueAt first)) (hsorted : free.Pairwise (· < ·))
    (hmodels : ∀ m ∈ start.models, M (valueAt m)) (h : Refines M first free start tested s) :
    Refined M first free start tested s := by
  induction h with
  | start => exact .of_start hmodels
  | test _ hnext htest ih => exact ih.test hfirst hsorted hnext htest

/-- Two pairs that are kept have different second variables: the first of each would otherwise be smaller than the
first of the other one. -/
theorem Refined.length_kept_le (h : Refined M first free start tested s) :
    (kept first s.models tested).length ≤ free.length := by
  have hle : ∀ p ∈ kept first s.models tested, ∀ r ∈ kept first s.models tested, p.2 = r.2 → r.1 ≤ p.1 := by
    intro p hp r hr hsecond
    obtain ⟨hp, htogether⟩ := List.mem_filter.1 hp
    by_contra hlt
    have hapart := h.smallest r (List.mem_filter.1 hr).1 p.1 (h.mem p hp).1 (Nat.lt_of_not_le hlt)
    rw [← hsecond, htogether] at hapart
    cases hapart
  have hnodup : ((kept first s.models tested).map Prod.snd).Nodup := by
    refine (h.nodup.filter _).map_on fun p hp r hr hsecond => Prod.ext ?_ hsecond
    exact Nat.le_antisymm (hle r hr p hp hsecond.symm) (hle p hp r hr hsecond)
  have hsubset : (kept first s.models tested).map Prod.snd ⊆ free := by
    intro v hv
    obtain ⟨p, hp, rfl⟩ := List.mem_map.1 hv
    exact (h.mem p (List.mem_filter.1 hp).1).2
  rw [← List.length_map Prod.snd]
  exact (hnodup.subperm hsubset).length_le

theorem Refined.length_tested_le (h : Refined M first free start tested s) :
    tested.length ≤ 2 * free.length - 1 := by
  have hkept := h.length_kept_le
  have hcount := h.length_le
  have hclasses := numClasses_le first s.models free
  cases free with
  | nil =>
    rw [List.length_nil] at hkept hclasses ⊢
    omega
  | cons v vs =>
    have hpos := numClasses_pos first start.models (List.cons_ne_nil v vs)
    omega

/-- What the search for units leaves to the refinement: models in `M`, which took at most one question for each
variable, and some of the variables. -/
structure Begins (M : (Var → Bool) → Prop) (vars : List Var) (start : State) (free : List Var) : Prop where
  models : ∀ m ∈ start.models, M (valueAt m)
  asked_le : start.asked ≤ vars.length
  sublist : free.Sublist vars

/-- No pair is tested twice, and the tests are few: every one of them costs two questions at most, and it splits a
class or keeps a pair for good, for which there are no more occasions than variables each. -/
theorem Refines.linear {vars : List Var} (hbegins : Begins M vars start free) (hfirst : M (valueAt first))
    (hsorted : vars.Pairwise (· < ·)) (h : Refines M first free start tested s) :
    tested.Nodup ∧ tested.length ≤ 2 * vars.length - 1 ∧ s.asked ≤ 5 * vars.length - 1 := by
  have hrefined := h.refined hfirst (hsorted.sublist hbegins.sublist) hbegins.models
  have htested := hrefined.length_tested_le
  have hasked := hrefined.asked_le
  have hstart := hbegins.asked_le
  have hlength := hbegins.sublist.length_le
  exact ⟨hrefined.nodup, by omega, by omega⟩

end Refinement

section Run

variable {probe : Probe} {numVars : Nat} {M : (Var → Bool) → Prop} {first : Array Bool}

theorem Decides.admits (hprobe : Decides probe numVars M) {extra : List Literal}
    (hextra : ∀ l ∈ extra, l.var < numVars) : Admits M extra (probe extra) := by
  cases hanswer : probe extra with
  | none => exact hprobe.refutes extra hextra hanswer
  | some m => exact hprobe.model hextra hanswer

theorem Decides.admits_question (hprobe : Decides probe numVars M) {free : List Var}
    (hfree : ∀ v ∈ free, v < numVars) {models : List (Array Bool)} {tested : List (Var × Var)} {pair : Var × Var}
    (hnext : nextPair? first models free tested = some pair) (b : Bool) :
    Admits M (question first pair b) (probe (question first pair b)) := by
  obtain ⟨hu, hv, -⟩ := nextPair?_spec hnext
  exact hprobe.admits (lt_of_mem_apart (hfree _ hu) (hfree _ hv))

theorem Decides.exists_tests (hprobe : Decides probe numVars M) {free : List Var} (hfree : ∀ v ∈ free, v < numVars)
    {s : State} {tested : List (Var × Var)} {pair : Var × Var}
    (hnext : nextPair? first s.models free tested = some pair) : ∃ t, Tests M first pair s t := by
  have hadmits := hprobe.admits_question hfree hnext
  by_cases hsome : (probe (question first pair false)).isSome = true
  · exact ⟨_, .below (hadmits false) hsome⟩
  · exact ⟨_, .above (hadmits false) hsome (hadmits true)⟩

/-- The search for equivalences follows the refinement: it ends with nothing left to be tested, or without a budget
for a test that would come next. The answers of its probe are those of a correct oracle. -/
theorem Decides.refines (hprobe : Decides probe numVars M) {free : List Var} (hfree : ∀ v ∈ free, v < numVars)
    {start s : State} {tested : List (Var × Var)} (hrun : Refines M first free start tested s) :
    ∃ tested' t, Refines M first free start tested' t ∧
      ((findEquivalences probe first free tested s).2 = t ∧ nextPair? first t.models free tested' = none ∨
        (findEquivalences probe first free tested s).2.budget = 0 ∧
          (findEquivalences probe first free tested s).2.asked < t.asked) := by
  fun_induction findEquivalences probe first free tested s with
  | case1 tested s hnone => exact ⟨tested, s, hrun, .inl ⟨rfl, hnone⟩⟩
  | case2 tested s u v hpair _ hzero =>
    obtain ⟨t, ht⟩ := hprobe.exists_tests hfree hpair
    exact ⟨_, t, hrun.test hpair ht, .inr ⟨hzero, ht.asked.1⟩⟩
  | case3 tested s u v hpair _ inverted _ below s' hsome ih =>
    exact ih (hrun.test hpair (.below (hprobe.admits_question hfree hpair false) hsome))
  | case4 tested s u v hpair _ inverted _ below s' hnone hzero =>
    have hadmits := hprobe.admits_question hfree hpair
    exact ⟨_, _, hrun.test hpair (.above (hadmits false) hnone (hadmits true)), .inr ⟨hzero, Nat.lt_succ_self _⟩⟩
  | case5 tested s u v hpair _ inverted _ below s' hnone _ above s'' found rest heq ih =>
    have hadmits := hprobe.admits_question hfree hpair
    have hnext := ih (hrun.test hpair (.above (hadmits false) hnone (hadmits true)))
    rwa [heq] at hnext

theorem run_nil (budget : Nat) : run probe budget [] first = { units := [], equivalences := [], asked := 0 } := by
  rw [run_eq]
  dsimp only
  rw [findEquivalences]
  rfl

variable {vars : List Var} (hprobe : Decides probe numVars M) (hfirst : M (valueAt first))
  (hvars : ∀ v ∈ vars, v < numVars)
include hprobe hfirst hvars

theorem Decides.begins (budget : Nat) : Begins M vars (findUnits probe first vars (.initial budget)).2
    (remaining (findUnits probe first vars (.initial budget)).1 vars) where
  models := (findUnits_complete hprobe hfirst hvars (s := .initial budget) (List.forall_mem_nil _)).1
  asked_le := (leads_findUnits probe first vars (.initial budget)).of_initial.1
  sublist := List.filter_sublist

variable (hsorted : vars.Pairwise (· < ·))
include hsorted

/-- Probing asks at most five questions for each variable: one to find the units, and two for each test. -/
theorem Decides.asked_run_le (budget : Nat) : (run probe budget vars first).asked ≤ 5 * vars.length - 1 := by
  have hbegins := hprobe.begins hfirst hvars budget
  rw [run_eq]
  generalize findUnits probe first vars (.initial budget) = units at hbegins
  have hfree : ∀ v ∈ remaining units.1 vars, v < numVars := fun v hv => hvars v (hbegins.sublist.subset hv)
  have hstart : Refines M first (remaining units.1 vars) units.2 [] units.2 := .start
  obtain ⟨tested, t, hrun, hend⟩ := hprobe.refines hfree hstart
  obtain ⟨-, -, hasked⟩ := hrun.linear hbegins hfirst hsorted
  rcases hend with ⟨heq, -⟩ | ⟨-, hlt⟩
  · exact (congrArg State.asked heq).trans_le hasked
  · exact (Nat.le_of_lt hlt).trans hasked

/-- With five questions for each variable, the refinement goes on until nothing is left to be tested, as no run of it
needs more. -/
theorem Decides.refines_of_le {budget : Nat} (h : 5 * vars.length ≤ budget) :
    let units := findUnits probe first vars (.initial budget)
    let free := remaining units.1 vars
    let found := findEquivalences probe first free [] units.2
    ∃ tested, Refines M first free units.2 tested found.2 ∧ nextPair? first found.2.models free tested = none := by
  intro units free found
  have hbegins : Begins M vars units.2 free := hprobe.begins hfirst hvars budget
  have hfree : ∀ v ∈ free, v < numVars := fun v hv => hvars v (hbegins.sublist.subset hv)
  have hstart : Refines M first free units.2 [] units.2 := .start
  obtain ⟨tested, t, hrun, hend⟩ := hprobe.refines hfree hstart
  cases hend with
  | inl hend =>
    obtain ⟨heq, hnone⟩ := hend
    exact ⟨tested, heq ▸ hrun, heq ▸ hnone⟩
  | inr hend =>
    -- the budget would have been spent on more questions than there can be
    obtain ⟨hzero, hlt⟩ : found.2.budget = 0 ∧ found.2.asked < t.asked := hend
    obtain ⟨-, -, hasked⟩ := hrun.linear hbegins hfirst hsorted
    obtain ⟨-, hunits⟩ := (leads_findUnits probe first vars (.initial budget)).of_initial
    have htotal : found.2.budget + found.2.asked = budget :=
      (leads_findEquivalences probe first free [] units.2).total.trans hunits
    omega

/-- More than five questions for each variable change nothing, neither the facts that are found nor the number of
questions asked. -/
theorem Decides.run_of_le {budget : Nat} (h : 5 * vars.length ≤ budget) :
    run probe budget vars first = run probe (5 * vars.length) vars first := by
  cases vars with
  | nil => rw [run_nil, run_nil]
  | cons v vs =>
    induction budget, h using Nat.le_induction with
    | base => rfl
    | succ budget hle ih =>
      have hasked := hprobe.asked_run_le hfirst hvars hsorted budget
      rw [List.length_cons] at hasked hle
      rw [← ih]
      exact suffices_of_asked_lt (by omega)

end Run

end Probing

namespace Decider

variable {decide : Decider} {q : Query} {model : Array Bool}

/-- Probing ends by itself: with `n` variables it asks at most `5 * n` questions, so that a greater budget changes
nothing, and then ends with no pair left to be tested. On the way no pair is tested twice, and every model that sets a
pair apart leaves more classes; this is so for any answers of a correct oracle, even for one that would answer a
question differently when asked again. -/
theorem probe_linear (hdecide : decide.Answers q.numVars q.clauses)
    (hmodel : decide q.numVars q.clauses q.assumptions = some model) :
    (∀ budget, (decide.probe { q with maxConflicts := budget } model).asked ≤ 5 * q.numVars) ∧
    (∀ budget ≥ 5 * q.numVars, decide.probe { q with maxConflicts := budget } model =
      decide.probe { q with maxConflicts := 5 * q.numVars } model) ∧
    ∀ budget,
      let probe : Probing.Probe := fun extra => decide q.numVars q.clauses (q.assumptions ++ extra)
      let M := Probing.Upto q.numVars (q.Holds ·)
      let units := Probing.findUnits probe model q.unassumed (.initial budget)
      let free := Probing.remaining units.1 q.unassumed
      let found := Probing.findEquivalences probe model free [] units.2
      (5 * q.numVars ≤ budget → ∃ tested, Probing.Refines M model free units.2 tested found.2 ∧
        Probing.nextPair? model found.2.models free tested = none) ∧
      ∀ tested s, Probing.Refines M model free units.2 tested s →
        tested.Nodup ∧ tested.length ≤ 2 * q.numVars ∧ s.asked ≤ 5 * q.numVars ∧
        ∀ pair b m, Probing.nextPair? model s.models free tested = some pair →
          Probing.Admits M (Probing.question model pair b) (some m) →
          Probing.numClasses model s.models free < Probing.numClasses model (m :: s.models) free := by
  have hprobe := hdecide.decides
  have hfirst := holds_upto hdecide hmodel
  have hvars : ∀ v ∈ q.unassumed, v < q.numVars := fun v hv => lt_of_mem_unassumed hv
  have hsorted := pairwise_unassumed q
  have hlength := length_unassumed_le q
  have hle : 5 * q.unassumed.length ≤ 5 * q.numVars := Nat.mul_le_mul_left 5 hlength
  refine ⟨fun budget => ?_, fun budget hbudget => ?_, fun budget => ?_⟩
  · have hasked := hprobe.asked_run_le hfirst hvars hsorted budget
    exact hasked.trans (by omega)
  · exact (hprobe.run_of_le hfirst hvars hsorted (hle.trans hbudget)).trans
      (hprobe.run_of_le hfirst hvars hsorted hle).symm
  · intro probe M units free found
    refine ⟨fun hbudget => ?_, fun tested s hrun => ?_⟩
    · exact hprobe.refines_of_le hfirst hvars hsorted (hle.trans hbudget)
    · obtain ⟨hnodup, htested, hasked⟩ := hrun.linear (hprobe.begins hfirst hvars budget) hfirst hsorted
      refine ⟨hnodup, htested.trans (by omega), hasked.trans (by omega), ?_⟩
      exact fun pair b m hnext hadmits => hadmits.numClasses_lt hnext

/-- Two variables that are opposite and one that is free: the search needs fifteen questions at most, whatever the
budget is. -/
theorem probe_linear_opposite :
    let q : Query :=
      { numVars := 3, clauses := [[⟨0, true⟩, ⟨2, true⟩], [⟨0, false⟩, ⟨2, false⟩]]
        assumptions := [], maxConflicts := 100, verbosity := 0 }
    Decider.Answers Cnf.solveUnder q.numVars q.clauses ∧ ∃ model,
      Cnf.solveUnder q.numVars q.clauses q.assumptions = some model ∧
      (Decider.probe Cnf.solveUnder q model).asked ≤ 15 ∧
      Decider.probe Cnf.solveUnder q model = Decider.probe Cnf.solveUnder { q with maxConflicts := 15 } model := by
  intro q
  have hanswers := answers_solveUnder q.numVars q.clauses
  have hholds : q.Holds fun v => v == 0 := ⟨by decide, by decide⟩
  cases hmodel : Cnf.solveUnder q.numVars q.clauses q.assumptions with
  | none => exact absurd hholds (hanswers.none hmodel _)
  | some model =>
    obtain ⟨hasked, hstable, -⟩ := probe_linear hanswers hmodel
    exact ⟨hanswers, model, rfl, hasked 100, hstable 100 (by decide)⟩

end Decider

end BoolPoly
