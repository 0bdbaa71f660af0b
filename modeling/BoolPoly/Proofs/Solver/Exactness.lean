import BoolPoly.Proofs.Solver.Exhaustion
import Mathlib.Data.List.Nodup

namespace BoolPoly

namespace Probing

section Exact

variable {probe : Probe} {numVars : Nat} {M : (Var → Bool) → Prop} {first : Array Bool}

/-- The units are about the probed variables, in their order, and each variable has at most one. -/
theorem sublist_findUnits (probe : Probe) (first : Array Bool) (vs : List Var) (s : State) :
    ((findUnits probe first vs s).1.map Literal.var).Sublist vs := by
  fun_induction findUnits probe first vs s with
  | case1 => exact List.Sublist.refl _
  | case2 v vs s _ _ ih => exact ih.cons v
  | case3 v vs s => exact List.nil_sublist _
  | case4 v vs s value _ _ answer units rest heq ih =>
    rw [heq] at ih
    dsimp only
    split
    · exact ih.cons v
    · exact ih.cons_cons v

/-- The first of a pair that is to be tested is the smallest variable that goes together with the second. So a
reported equivalence leads from a variable to the first one that it is linked to. -/
theorem lt_of_nextPair? {models : List (Array Bool)} {free : List Var} {tested : List (Var × Var)} {u v : Var}
    (hsorted : free.Pairwise (· < ·)) (h : nextPair? first models free tested = some (u, v)) :
    u < v ∧ ∀ w ∈ free, w < u → together first models w v = false := by
  obtain ⟨x, hx, hpair⟩ := List.exists_of_findSome?_eq_some h
  split at hpair
  · next y hfind =>
    split at hpair
    · cases hpair
    · next hnot =>
      obtain ⟨rfl, rfl⟩ := Prod.mk.inj (Option.some.inj hpair)
      obtain ⟨-, before, after, rfl, hbefore⟩ := List.find?_eq_some_iff_append.1 hfind
      obtain ⟨-, hafter, -⟩ := List.pairwise_append.1 hsorted
      have hgreater := (List.pairwise_cons.1 hafter).1
      have hsmaller : ∀ w ∈ before ++ y :: after, w < y → together first models w x = false := by
        intro w hw hlt
        cases List.mem_append.1 hw with
        | inl hw => simpa using hbefore w hw
        | inr hw =>
          cases List.mem_cons.1 hw with
          | inl heq => exact absurd heq (Nat.ne_of_lt hlt)
          | inr hw => exact absurd (hgreater w hw) (Nat.lt_asymm hlt)
      refine ⟨?_, hsmaller⟩
      -- `x` goes together with itself, so it does not come before the first such variable
      have hself : together first models x x = true := List.all_eq_true.2 fun m _ => by simp
      have hne : y ≠ x := fun heq => hnot (.inl heq)
      by_contra hle
      rw [hsmaller x hx (Nat.lt_of_le_of_ne (Nat.not_lt.1 hle) hne.symm)] at hself
      cases hself
  · cases hpair

/-- Whether the pair of literals states that `v` is linked to the first variable that it is linked to. -/
def IsFirstLink (M : (Var → Bool) → Prop) (free : List Var) (pair : Literal × Literal) : Prop :=
  ∃ v ∈ free, ∃ u c, FirstLink M free v u c ∧ pair = (⟨u, true⟩, ⟨v, !c⟩)

theorem firstLink_of_mem_findEquivalences (hprobe : Decides probe numVars M) (hfirst : M (valueAt first))
    {free : List Var} (hfree : ∀ v ∈ free, v < numVars) (hsorted : free.Pairwise (· < ·))
    {tested : List (Var × Var)} {s : State} (hmodels : ∀ m ∈ s.models, M (valueAt m)) {pair : Literal × Literal}
    (hmem : pair ∈ (findEquivalences probe first free tested s).1) : IsFirstLink M free pair := by
  fun_induction findEquivalences probe first free tested s with
  | case1 => cases hmem
  | case2 => cases hmem
  | case3 tested s u v hpair _ inverted _ below s' _ ih =>
    obtain ⟨hu, hv, -⟩ := nextPair?_spec hpair
    exact ih (hprobe.spend hmodels (lt_of_mem_apart (hfree u hu) (hfree v hv))) hmem
  | case4 => cases hmem
  | case5 tested s u v hpair _ inverted _ below s' hbelow _ above s'' found rest heq ih =>
    obtain ⟨hu, hv, -⟩ := nextPair?_spec hpair
    have hspent : ∀ m ∈ s''.models, M (valueAt m) :=
      hprobe.spend (hprobe.spend hmodels (lt_of_mem_apart (hfree u hu) (hfree v hv)))
        (lt_of_mem_apart (hfree u hu) (hfree v hv))
    rw [heq] at ih
    dsimp only at hmem
    split at hmem
    · exact ih hspent hmem
    · next habove =>
      obtain rfl | hmem := List.mem_cons.1 hmem
      · obtain ⟨hlt, hapart⟩ := lt_of_nextPair? hsorted hpair
        have hlinked := hprobe.linked (hfree u hu) (hfree v hv) hbelow habove
        refine ⟨v, hv, u, inverted, ⟨hu, hlt, hlinked, fun w hw hwu d hd => ?_⟩, rfl⟩
        have htogether := together_of_linked hfirst hmodels hd
        rw [hapart w hw hwu] at htogether
        cases htogether
      · exact ih hspent hmem

/-- The pairs that are found are pairwise distinct, and none of them was tested before, so that no pair is reported
twice. -/
theorem nodup_findEquivalences (probe : Probe) (first : Array Bool) (free : List Var)
    (tested : List (Var × Var)) (s : State) :
    (findEquivalences probe first free tested s).1.Nodup ∧
    ∀ pair ∈ (findEquivalences probe first free tested s).1, (pair.1.var, pair.2.var) ∉ tested := by
  fun_induction findEquivalences probe first free tested s with
  | case1 => exact ⟨List.nodup_nil, List.forall_mem_nil _⟩
  | case2 => exact ⟨List.nodup_nil, List.forall_mem_nil _⟩
  | case3 tested s u v hpair _ inverted _ below s' _ ih =>
    obtain ⟨hnodup, hnew⟩ := ih
    exact ⟨hnodup, fun pair hmem htested => hnew pair hmem (List.mem_cons_of_mem _ htested)⟩
  | case4 => exact ⟨List.nodup_nil, List.forall_mem_nil _⟩
  | case5 tested s u v hpair _ inverted _ below s' _ _ above s'' found rest heq ih =>
    rw [heq] at ih
    obtain ⟨hnodup, hnew⟩ := ih
    have hweaker : ∀ pair ∈ found, (pair.1.var, pair.2.var) ∉ tested :=
      fun pair hmem htested => hnew pair hmem (List.mem_cons_of_mem _ htested)
    dsimp only
    split
    · exact ⟨hnodup, hweaker⟩
    · obtain ⟨-, -, hfresh⟩ := nextPair?_spec hpair
      exact ⟨List.nodup_cons.2 ⟨fun hmem => hnew _ hmem List.mem_cons_self, hnodup⟩,
        List.forall_mem_cons.2 ⟨hfresh, hweaker⟩⟩

/-- A unit is about a probed variable, and the variable has its value in all models. -/
theorem forced_of_mem_units (hprobe : Refutes probe numVars M) {vars : List Var} (hvars : ∀ v ∈ vars, v < numVars)
    {budget : Nat} {l : Literal} (hl : l ∈ (run probe budget vars first).units) :
    l.var ∈ vars ∧ Forced M l.var l.positive := by
  refine ⟨(sublist_findUnits probe first vars _).subset (List.mem_map_of_mem hl), ?_⟩
  intro a ha
  exact Literal.holds_mk.1 ((run_sound hprobe hvars budget ha).1 l hl)

/-- With a budget that suffices, the variables that no unit is about are those without a fixed value. -/
theorem mem_remaining (hprobe : Decides probe numVars M) (hfirst : M (valueAt first)) {vars : List Var}
    (hvars : ∀ v ∈ vars, v < numVars) (hsorted : vars.Pairwise (· < ·)) {budget : Nat}
    (hbudget : Suffices probe budget vars first) {v : Var} :
    v ∈ remaining (run probe budget vars first).units vars ↔ v ∈ vars ∧ ∀ b, ¬Forced M v b := by
  unfold remaining
  rw [List.mem_filter, Bool.not_eq_true', List.contains_eq_mem, decide_eq_false_iff_not]
  refine and_congr_right fun hv => ⟨fun hnot b hforced => hnot ?_, fun hnot hunit => ?_⟩
  · exact List.mem_map.2 ⟨_, (run_complete hprobe hfirst hvars hsorted hbudget).1 v hv b hforced, rfl⟩
  · obtain ⟨l, hl, rfl⟩ := List.mem_map.1 hunit
    exact hnot _ (forced_of_mem_units hprobe.refutes hvars hl).2

/-- With a budget that suffices, the units are the probed variables that have one value in all models. -/
theorem mem_units_iff (hprobe : Decides probe numVars M) (hfirst : M (valueAt first)) {vars : List Var}
    (hvars : ∀ v ∈ vars, v < numVars) (hsorted : vars.Pairwise (· < ·)) {budget : Nat}
    (hbudget : Suffices probe budget vars first) {v : Var} {b : Bool} :
    ⟨v, b⟩ ∈ (run probe budget vars first).units ↔ v ∈ vars ∧ Forced M v b := by
  constructor
  · exact fun hunit => forced_of_mem_units hprobe.refutes hvars hunit
  · rintro ⟨hv, hforced⟩
    exact (run_complete hprobe hfirst hvars hsorted hbudget).1 v hv b hforced

/-- With a budget that suffices, the equivalences lead every variable without a fixed value that is linked to smaller
ones back to the first of them. -/
theorem mem_equivalences_iff (hprobe : Decides probe numVars M) (hfirst : M (valueAt first)) {vars : List Var}
    (hvars : ∀ v ∈ vars, v < numVars) (hsorted : vars.Pairwise (· < ·)) {budget : Nat}
    (hbudget : Suffices probe budget vars first) {pair : Literal × Literal} :
    pair ∈ (run probe budget vars first).equivalences ↔
      ∃ v ∈ vars, (∀ b, ¬Forced M v b) ∧ ∃ u c, FirstLink M vars v u c ∧ pair = (⟨u, true⟩, ⟨v, !c⟩) := by
  have hremaining := fun {w} => mem_remaining (v := w) hprobe hfirst hvars hsorted hbudget
  constructor
  · intro hmem
    have hmodels := (findUnits_complete hprobe hfirst hvars (s := .initial budget) (List.forall_mem_nil _)).1
    obtain ⟨v, hv, u, c, hlink, hpair⟩ := firstLink_of_mem_findEquivalences hprobe hfirst
      (fun x hx => hvars x (List.mem_filter.1 hx).1) (hsorted.filter _) hmodels hmem
    obtain ⟨hv, hnot⟩ := hremaining.1 hv
    refine ⟨v, hv, hnot, u, c, ⟨(hremaining.1 hlink.mem).1, hlink.lt, hlink.linked, ?_⟩, hpair⟩
    intro w hw hwu d hd
    exact hlink.first w (hremaining.2 ⟨hw, fun b hb => hnot _ (hd.forced hb)⟩) hwu d hd
  · rintro ⟨v, hv, hnot, u, c, hlink, rfl⟩
    exact (run_complete hprobe hfirst hvars hsorted hbudget).2 v hv hnot u c hlink

end Exact

section Upto

variable {n : Nat} {M : (Var → Bool) → Prop}

/-- The assignments that agree with one in `M` on the first `n` variables. A model of a query is only known up to its
variables, so that probes are related to these. -/
def Upto (n : Nat) (M : (Var → Bool) → Prop) (a : Var → Bool) : Prop := ∃ b, AgreeBelow n a b ∧ M b

theorem forced_upto {v : Var} (hv : v < n) {b : Bool} : Forced (Upto n M) v b ↔ Forced M v b := by
  constructor
  · exact fun h a ha => h a ⟨a, .refl n a, ha⟩
  · rintro h a ⟨a', hagree, ha'⟩
    rw [hagree v hv, h a' ha']

theorem linked_upto {u v : Var} (hv : v < n) (hu : u < n) {c : Bool} :
    Linked (Upto n M) v u c ↔ Linked M v u c := by
  constructor
  · exact fun h a ha => h a ⟨a, .refl n a, ha⟩
  · rintro h a ⟨a', hagree, ha'⟩
    rw [hagree v hv, hagree u hu, h a' ha']

end Upto

end Probing

/-- Whether the procedure, asked about a formula under any assumptions, finds a model exactly when there is one. The
model lists the values of the first `n` variables. -/
structure Decider.Answers (decide : Decider) (n : Nat) (f : Cnf) : Prop where
  model : ∀ {assumptions : List Literal} {model : Array Bool}, decide n f assumptions = some model →
    ∃ a, AgreeBelow n (Probing.valueAt model) a ∧ HoldsUnder a f assumptions
  none : ∀ {assumptions : List Literal}, decide n f assumptions = none → ∀ a, ¬HoldsUnder a f assumptions

/-- Whether no assumption fixes the variable, and it has both values in the models of the query. Only such variables
occur in equivalences. -/
def Query.Open (q : Query) (v : Var) : Prop := v ∈ q.unassumed ∧ ∀ b, ¬Forced (q.Holds ·) v b

/-- Whether the report has just the facts of the query: the literals over unassumed variables that hold in all models,
by variable, and for each open variable that is linked to smaller open ones its relation to the smallest of these,
once. -/
structure Report.Exact (q : Query) (r : Report) : Prop where
  units : ∀ v b, ⟨v, b⟩ ∈ r.units ↔ v ∈ q.unassumed ∧ Forced (q.Holds ·) v b
  ascending : r.units.Pairwise fun l m => l.var < m.var
  equivalences : ∀ pair, pair ∈ r.equivalences ↔ ∃ v u c, q.Open v ∧ q.Open u ∧ u < v ∧
    Linked (q.Holds ·) v u c ∧ (∀ w < u, q.Open w → ∀ d, ¬Linked (q.Holds ·) v w d) ∧
    pair = (⟨u, true⟩, ⟨v, !c⟩)
  nodup : r.equivalences.Nodup

namespace Decider

variable {decide : Decider} {q : Query} {model : Array Bool}

theorem lt_of_mem_unassumed {v : Var} (hv : v ∈ q.unassumed) : v < q.numVars := (mem_unassumed.1 hv).1

theorem pairwise_unassumed (q : Query) : q.unassumed.Pairwise (· < ·) := List.pairwise_lt_range.filter _

/-- A decision procedure decides the probes, as to the assignments that agree with a model of the query. The
additional assumptions are about variables of the query. -/
theorem Answers.decides (hdecide : decide.Answers q.numVars q.clauses) :
    Probing.Decides (fun extra => decide q.numVars q.clauses (q.assumptions ++ extra)) q.numVars
      (Probing.Upto q.numVars (q.Holds ·)) where
  refutes extra hextra hnone := by
    rintro a ⟨a', hagree, ha'⟩ hholds
    refine hdecide.none hnone a' ⟨ha'.clauses, List.forall_mem_append.2 ⟨ha'.assumptions, ?_⟩⟩
    intro l hl
    rw [← Literal.holds_congr (hagree l.var (hextra l hl))]
    exact hholds l hl
  model {extra m} hextra hm := by
    obtain ⟨a, hagree, ha⟩ := hdecide.model hm
    obtain ⟨hassumptions, hholds⟩ := List.forall_mem_append.1 ha.assumptions
    refine ⟨⟨a, hagree, ha.clauses, hassumptions⟩, fun l hl => ?_⟩
    rw [Literal.holds_congr (hagree l.var (hextra l hl))]
    exact hholds l hl

theorem holds_upto (hdecide : decide.Answers q.numVars q.clauses)
    (hmodel : decide q.numVars q.clauses q.assumptions = some model) :
    Probing.Upto q.numVars (q.Holds ·) (Probing.valueAt model) :=
  hdecide.model hmodel

/-- The first link in the sense of the probes, which is among all unassumed variables, is the one among the open
variables: a variable linked to an open one is open. -/
theorem firstLink_iff {u v : Var} {c : Bool} (hv : v ∈ q.unassumed) (hnot : ∀ b, ¬Forced (q.Holds ·) v b) :
    Probing.FirstLink (Probing.Upto q.numVars (q.Holds ·)) q.unassumed v u c ↔
      q.Open u ∧ u < v ∧ Linked (q.Holds ·) v u c ∧ ∀ w < u, q.Open w → ∀ d, ¬Linked (q.Holds ·) v w d := by
  have hlinked : ∀ {w d}, w ∈ q.unassumed →
      (Linked (Probing.Upto q.numVars (q.Holds ·)) v w d ↔ Linked (q.Holds ·) v w d) :=
    fun hw => Probing.linked_upto (lt_of_mem_unassumed hv) (lt_of_mem_unassumed hw)
  have hopen : ∀ {w d}, w ∈ q.unassumed → Linked (q.Holds ·) v w d → q.Open w :=
    fun hw hd => ⟨hw, fun b hb => hnot _ (hd.forced hb)⟩
  constructor
  · rintro ⟨hu, hlt, hlink, hfirst⟩
    have hlink := (hlinked hu).1 hlink
    exact ⟨hopen hu hlink, hlt, hlink, fun w hwu hw d hd => hfirst w hw.1 hwu d ((hlinked hw.1).2 hd)⟩
  · rintro ⟨hu, hlt, hlink, hfirst⟩
    refine ⟨hu.1, hlt, (hlinked hu.1).2 hlink, fun w hw hwu d hd => ?_⟩
    have hd := (hlinked hw).1 hd
    exact hfirst w hwu (hopen hw hd) d hd

/-- With a budget that suffices, probing from a model of the query is exact: every fact that completeness asks for is
there, and nothing else is. -/
theorem exact_probe (hdecide : decide.Answers q.numVars q.clauses)
    (hmodel : decide q.numVars q.clauses q.assumptions = some model) (hbudget : decide.Suffices q) {r : Report}
    (hunits : r.units = (decide.probe q model).units)
    (hequivalences : r.equivalences = (decide.probe q model).equivalences) : r.Exact q := by
  have hvars : ∀ v ∈ q.unassumed, v < q.numVars := fun v hv => lt_of_mem_unassumed hv
  have hfirst := holds_upto hdecide hmodel
  have hsuffices := hbudget model hmodel
  constructor
  · intro v b
    rw [hunits]
    unfold probe
    rw [Probing.mem_units_iff hdecide.decides hfirst hvars (pairwise_unassumed q) hsuffices]
    exact and_congr_right fun hv => Probing.forced_upto (hvars v hv)
  · rw [hunits, ← List.pairwise_map]
    exact (pairwise_unassumed q).sublist (Probing.sublist_findUnits _ _ _ _)
  · intro pair
    rw [hequivalences]
    unfold probe
    rw [Probing.mem_equivalences_iff hdecide.decides hfirst hvars (pairwise_unassumed q) hsuffices]
    constructor
    · rintro ⟨v, hv, hnot, u, c, hlink, hpair⟩
      have hnot : ∀ b, ¬Forced (q.Holds ·) v b := fun b hb => hnot b ((Probing.forced_upto (hvars v hv)).2 hb)
      obtain ⟨hu, hlt, hlinked, hsmallest⟩ := (firstLink_iff hv hnot).1 hlink
      exact ⟨v, u, c, ⟨hv, hnot⟩, hu, hlt, hlinked, hsmallest, hpair⟩
    · rintro ⟨v, u, c, ⟨hv, hnot⟩, hu, hlt, hlinked, hsmallest, hpair⟩
      exact ⟨v, hv, fun b hb => hnot b ((Probing.forced_upto (hvars v hv)).1 hb), u, c,
        (firstLink_iff hv hnot).2 ⟨hu, hlt, hlinked, hsmallest⟩, hpair⟩
  · rw [hequivalences]
    exact (Probing.nodup_findEquivalences _ _ _ _ _).1

/-- A question to a solver in any state changes nothing but what the last question has left behind, and leaves what
the report about a new solver says. -/
theorem solve_of_query {s : ProbingSolver} (hquery : s.query q.assumptions = q) {r : Report}
    (hr : decide.solver q = .ok r) : s.solve decide q.assumptions =
      (r.outcome, { s with model := r.model, units := r.units, equivalences := r.equivalences }) := by
  have hasked : decide s.numVars s.clauses q.assumptions = decide q.numVars q.clauses q.assumptions :=
    congrArg (fun p : Query => decide p.numVars p.clauses p.assumptions) hquery
  cases hanswer : decide q.numVars q.clauses q.assumptions with
  | none =>
    rw [solver_of_none hanswer] at hr
    cases hr
    exact ProbingSolver.solve_of_none (hasked.trans hanswer)
  | some model =>
    rw [solver_of_some hanswer] at hr
    cases hr
    rw [ProbingSolver.solve_of_some (hasked.trans hanswer), hquery]

/-- Whatever models a correct procedure finds, the solver's answer is right, at most as many probes are made as the
budget allows, the facts of a satisfiable query hold in all its models, and they are exact if the budget suffices;
nothing is reported about an unsatisfiable one. The same remains in a solver that has answered other questions before:
nothing of theirs stays. No question is asked twice in a run, so that a function of the question stands for any way of
choosing the models. -/
theorem solver_exact (hdecide : decide.Answers q.numVars q.clauses) : ∃ r, decide.solver q = .ok r ∧
    (r.outcome = .sat ↔ ∃ a, q.Holds a) ∧ (r.outcome = .unsat ↔ ∀ a, ¬q.Holds a) ∧
    (r.outcome = .sat → ∃ model, r.model = some model ∧ (decide.probe q model).asked ≤ q.maxConflicts ∧
      (∀ a, q.Holds a → (∀ l ∈ r.units, l.holds a = true) ∧
        ∀ pair ∈ r.equivalences, pair.1.holds a = pair.2.holds a) ∧
      (decide.Suffices q → r.Exact q)) ∧
    (r.outcome = .unsat → r.model = none ∧ r.units = [] ∧ r.equivalences = []) ∧
    ∀ s : ProbingSolver, s.query q.assumptions = q → s.solve decide q.assumptions =
      (r.outcome, { s with model := r.model, units := r.units, equivalences := r.equivalences }) := by
  cases hmodel : decide q.numVars q.clauses q.assumptions with
  | none =>
    have hnone : ∀ a, ¬q.Holds a := hdecide.none hmodel
    have hr := solver_of_none hmodel
    refine ⟨_, hr, ⟨nofun, fun ⟨a, ha⟩ => absurd ha (hnone a)⟩, ⟨fun _ => hnone, fun _ => rfl⟩, nofun, ?_,
      fun s hquery => solve_of_query hquery hr⟩
    exact fun _ => ⟨rfl, rfl, rfl⟩
  | some model =>
    obtain ⟨a, hagree, ha⟩ := hdecide.model hmodel
    have hr := solver_of_some hmodel
    refine ⟨_, hr, ⟨fun _ => ⟨a, ha⟩, fun _ => rfl⟩, ⟨nofun, fun hnone => absurd ha (hnone a)⟩, ?_, nofun,
      fun s hquery => solve_of_query hquery hr⟩
    intro _
    refine ⟨model, rfl, Probing.asked_run_le _ _, ?_, fun hbudget => exact_probe hdecide hmodel hbudget rfl rfl⟩
    intro b hb
    exact Probing.run_sound hdecide.decides.refutes
      (fun v hv => lt_of_mem_unassumed hv) q.maxConflicts ⟨b, .refl _ b, hb⟩

/-- The complete search answers correctly about every formula, with a model that has a value for every variable of the
query. -/
theorem answers_solveUnder (n : Nat) (f : Cnf) : Decider.Answers Cnf.solveUnder n f where
  model h := by
    obtain ⟨ls, hls, rfl⟩ := Option.map_eq_some_iff.1 h
    refine ⟨Cnf.assignmentOf ls, valueAt_modelOf ls, ?_⟩
    rw [← holds_map_singleton_append]
    exact (Cnf.search_sound hls).holds
  none h a := by
    rw [← holds_map_singleton_append]
    exact Cnf.search_complete (Option.map_eq_none_iff.1 h) a

/-- Under the assumption of `x3`, which implies `x0`, the opposite variables `x1` and `x2` stay open: the search
reports `x0` as a unit and the relation of `x2` to `x1`. -/
theorem solver_exact_opposite :
    let q : Query :=
      { numVars := 4, clauses := [[⟨3, false⟩, ⟨0, true⟩], [⟨1, true⟩, ⟨2, true⟩], [⟨1, false⟩, ⟨2, false⟩]]
        assumptions := [⟨3, true⟩], maxConflicts := 100, verbosity := 0 }
    Decider.Answers Cnf.solveUnder q.numVars q.clauses ∧ ∃ r, probingSolver q = .ok r ∧ r.outcome = .sat ∧
      ⟨0, true⟩ ∈ r.units ∧ (⟨1, true⟩, ⟨2, false⟩) ∈ r.equivalences := by
  intro q
  have hanswers := answers_solveUnder q.numVars q.clauses
  have hholds : ∀ a : Var → Bool, q.Holds a ↔ a 3 = true ∧ a 0 = true ∧ a 2 = !a 1 := by
    intro a
    have hclauses : Cnf.holds a q.clauses = true ↔
        (a 3 = false ∨ a 0 = true) ∧ (a 1 = true ∨ a 2 = true) ∧ (a 1 = false ∨ a 2 = false) := by
      simp [q, Cnf.holds, Clause.holds, Literal.holds_mk]
    have hassumptions : (∀ l ∈ q.assumptions, l.holds a = true) ↔ a 3 = true := by
      simp [q, Literal.holds_mk]
    constructor
    · rintro ⟨hc, ha⟩
      rw [hclauses] at hc
      rw [hassumptions] at ha
      revert hc ha
      cases a 0 <;> cases a 1 <;> cases a 2 <;> cases a 3 <;> simp
    · rintro ⟨h3, h0, h2⟩
      refine ⟨hclauses.2 ⟨.inr h0, ?_⟩, hassumptions.2 h3⟩
      rw [h2]
      cases a 1 <;> simp
  have hmodel : ∀ b, q.Holds fun v => bif v == 1 then b else bif v == 2 then !b else true :=
    fun b => (hholds _).2 ⟨rfl, rfl, rfl⟩
  obtain ⟨r, hr, hsat, -, hfacts, -⟩ := solver_exact hanswers
  have hsat := hsat.2 ⟨_, hmodel true⟩
  obtain ⟨model, -, -, -, hexact⟩ := hfacts hsat
  have hexact := hexact (suffices_of_lt (by decide))
  have hforced : Forced (q.Holds ·) 0 true := fun a ha => ((hholds a).1 ha).2.1
  have hopen : q.Open 1 ∧ q.Open 2 := by
    refine ⟨⟨by decide, fun b hb => ?_⟩, ⟨by decide, fun b hb => ?_⟩⟩
    · exact absurd ((hb _ (hmodel true)).trans (hb _ (hmodel false)).symm) (by decide)
    · exact absurd ((hb _ (hmodel true)).trans (hb _ (hmodel false)).symm) (by decide)
  refine ⟨hanswers, r, hr, hsat, (hexact.units 0 true).2 ⟨by decide, hforced⟩, (hexact.equivalences _).2 ?_⟩
  refine ⟨2, 1, true, hopen.2, hopen.1, by decide, ?_, ?_, rfl⟩
  · intro a ha
    rw [((hholds a).1 ha).2.2, Bool.xor_true]
  · intro w hw hopenw d hd
    obtain rfl : w = 0 := Nat.lt_one_iff.1 hw
    exact hopenw.2 true hforced

end Decider

end BoolPoly
