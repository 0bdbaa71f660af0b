import BoolPoly.Proofs.Solver.ProbingSolver
import Mathlib.Order.Nat

namespace BoolPoly

/-- Whether the variable has the value at every assignment in `M`. If there is none, it has both values in this
sense. -/
def Forced (M : (Var → Bool) → Prop) (v : Var) (b : Bool) : Prop := ∀ a, M a → a v = b

/-- Whether `v` is equal to `u`, or to its negation, at every assignment in `M`. The last argument says which. -/
def Linked (M : (Var → Bool) → Prop) (v u : Var) (c : Bool) : Prop := ∀ a, M a → a v = (a u ^^ c)

theorem Linked.forced {M : (Var → Bool) → Prop} {u v : Var} {b c : Bool} (h : Linked M v u c) (hu : Forced M u b) :
    Forced M v (b ^^ c) := by
  intro a ha
  rw [h a ha, hu a ha]

theorem Linked.symm {M : (Var → Bool) → Prop} {u v : Var} {c : Bool} (h : Linked M v u c) : Linked M u v c := by
  intro a ha
  rw [h a ha, Bool.xor_assoc, Bool.xor_self, Bool.xor_false]

theorem Linked.trans {M : (Var → Bool) → Prop} {u v w : Var} {c d : Bool} (h : Linked M w v c)
    (h' : Linked M v u d) : Linked M w u (d ^^ c) := by
  intro a ha
  rw [h a ha, h' a ha, Bool.xor_assoc]

namespace Probing

/-- Whether the probe finds a model of the additional assumptions in `M`, and only if there is none finds nothing.
Which model it finds is open. -/
structure Decides (probe : Probe) (numVars : Nat) (M : (Var → Bool) → Prop) : Prop where
  refutes : Refutes probe numVars M
  model : ∀ {extra : List Literal} {m : Array Bool}, (∀ l ∈ extra, l.var < numVars) → probe extra = some m →
    M (valueAt m) ∧ ∀ l ∈ extra, l.holds (valueAt m) = true

/-- The budget suffices if one question more would change nothing, not even the number of questions asked. -/
def Suffices (probe : Probe) (budget : Nat) (vars : List Var) (first : Array Bool) : Prop :=
  run probe (budget + 1) vars first = run probe budget vars first

section Budget

/-- Whether `t` stands after `s` by at most `n` questions, each of them paid from the budget. What the questions were
does not matter for the count. -/
structure State.Leads (n : Nat) (s t : State) : Prop where
  le_asked : s.asked ≤ t.asked
  asked_le : t.asked ≤ s.asked + n
  total : t.budget + t.asked = s.budget + s.asked

theorem State.Leads.refl (n : Nat) (s : State) : State.Leads n s s :=
  ⟨Nat.le_refl _, Nat.le_add_right _ _, rfl⟩

theorem State.Leads.trans {n m k : Nat} {s t u : State} (hst : State.Leads n s t) (htu : State.Leads m t u)
    (hle : n + m ≤ k) : State.Leads k s u := by
  have hfirst := hst.asked_le
  have hsecond := htu.asked_le
  exact ⟨hst.le_asked.trans htu.le_asked, by omega, htu.total.trans hst.total⟩

theorem State.leads_spend {s : State} (h : s.budget ≠ 0) (answer : Option (Array Bool)) :
    State.Leads 1 s (s.spend answer) := by
  unfold spend
  constructor
  · exact Nat.le_succ _
  · exact Nat.le_refl _
  · dsimp only
    omega

/-- Where probing starts. -/
def State.initial (budget : Nat) : State := { budget, asked := 0, models := [] }

theorem State.Leads.of_initial {n budget : Nat} {s : State} (h : State.Leads n (.initial budget) s) :
    s.asked ≤ n ∧ s.budget + s.asked = budget :=
  ⟨Nat.zero_add n ▸ h.asked_le, h.total⟩

/-- The state with a budget for one question more. A run that has some budget left in the end goes on in the same way
from it. -/
def State.more (s : State) : State := { s with budget := s.budget + 1 }

theorem State.more_spend {s : State} (h : s.budget ≠ 0) (answer : Option (Array Bool)) :
    s.more.spend answer = (s.spend answer).more := by
  have hbudget : s.budget + 1 - 1 = s.budget - 1 + 1 := by omega
  unfold more spend
  dsimp only
  rw [hbudget]

variable {probe : Probe} {first : Array Bool}

theorem leads_findUnits (probe : Probe) (first : Array Bool) (vs : List Var) (s : State) :
    State.Leads vs.length s (findUnits probe first vs s).2 := by
  induction vs generalizing s with
  | nil => exact .refl _ s
  | cons v vs ih =>
    rw [findUnits]
    dsimp only
    split
    · exact (State.Leads.refl 0 s).trans (ih s) (by simp)
    · split
      · exact .refl _ s
      · next hbudget =>
        have hle : 1 + vs.length ≤ (v :: vs).length := by rw [List.length_cons, Nat.add_comm]
        exact (State.leads_spend hbudget _).trans (ih _) hle

/-- As long as some budget is left in the end, one question more changes nothing. So a run whose budget was not used
up is the run without a budget. -/
theorem findUnits_more {vs : List Var} {s : State} (h : (findUnits probe first vs s).2.budget ≠ 0) :
    findUnits probe first vs s.more =
      ((findUnits probe first vs s).1, (findUnits probe first vs s).2.more) := by
  fun_induction findUnits probe first vs s with
  | case1 => rfl
  | case2 v vs s _ hapart ih =>
    rw [findUnits]
    exact (if_pos hapart).trans (ih h)
  | case3 v vs s _ _ hbudget => exact absurd hbudget h
  | case4 v vs s _ htogether hbudget answer units rest heq ih =>
    rw [heq] at ih
    have hrest := ih h
    rw [← State.more_spend hbudget] at hrest
    rw [findUnits]
    refine (if_neg htogether).trans ((if_neg (Nat.succ_ne_zero _)).trans ?_)
    dsimp only
    rw [hrest]

/-- A pair that is to be tested costs one question, or two if the first one is refuted. -/
theorem findEquivalences_of_nextPair? {free : List Var} {tested : List (Var × Var)} {s : State} {u v : Var}
    (h : nextPair? first s.models free tested = some (u, v)) :
    findEquivalences probe first free tested s =
      let inverted := valueAt first u ^^ valueAt first v
      if s.budget = 0 then ([], s)
      else
        let below := probe (apart u v inverted false)
        if below.isSome then findEquivalences probe first free ((u, v) :: tested) (s.spend below)
        else if (s.spend below).budget = 0 then ([], s.spend below)
        else
          let above := probe (apart u v inverted true)
          let rest := findEquivalences probe first free ((u, v) :: tested) ((s.spend below).spend above)
          (if above.isSome then rest.1 else (⟨u, true⟩, ⟨v, !inverted⟩) :: rest.1, rest.2) := by
  rw [findEquivalences]
  split
  · next hnone =>
    rw [h] at hnone
    cases hnone
  · next hsome =>
    cases h.symm.trans hsome
    rfl

theorem leads_findEquivalences (probe : Probe) (first : Array Bool) (free : List Var)
    (tested : List (Var × Var)) (s : State) :
    State.Leads (2 * (untested free tested).length) s (findEquivalences probe first free tested s).2 := by
  fun_induction findEquivalences probe first free tested s with
  | case1 tested s => exact .refl _ s
  | case2 tested s => exact .refl _ s
  | case3 tested s u v hpair hlt inverted hbudget below s' hbelow ih =>
    refine (State.leads_spend hbudget below).trans ih ?_
    omega
  | case4 tested s u v hpair hlt inverted hbudget below s' =>
    refine (State.leads_spend hbudget below).trans (.refl 0 _) ?_
    omega
  | case5 tested s u v hpair hlt inverted hbudget below s' hbelow hbudget' above s'' found rest heq ih =>
    rw [heq] at ih
    refine ((State.leads_spend hbudget below).trans (State.leads_spend hbudget' above) (Nat.le_refl 2)).trans ih ?_
    omega

theorem findEquivalences_more {free : List Var} {tested : List (Var × Var)} {s : State}
    (h : (findEquivalences probe first free tested s).2.budget ≠ 0) :
    findEquivalences probe first free tested s.more =
      ((findEquivalences probe first free tested s).1, (findEquivalences probe first free tested s).2.more) := by
  fun_induction findEquivalences probe first free tested s with
  | case1 tested s hnone =>
    rw [findEquivalences]
    split
    · rfl
    · next hsome =>
      cases hnone.symm.trans hsome
  | case2 tested s u v hpair _ hbudget => exact absurd hbudget h
  | case3 tested s u v hpair _ inverted hbudget below s' hbelow ih =>
    rw [findEquivalences_of_nextPair? (s := s.more) hpair]
    refine (if_neg (Nat.succ_ne_zero _)).trans ((if_pos hbelow).trans ?_)
    rw [State.more_spend hbudget]
    exact ih h
  | case4 tested s u v hpair _ _ hbudget below s' _ hbudget' => exact absurd hbudget' h
  | case5 tested s u v hpair _ inverted hbudget below s' hbelow hbudget' above s'' found rest heq ih =>
    rw [heq] at ih
    have hrest := ih h
    rw [← State.more_spend hbudget', ← State.more_spend hbudget] at hrest
    rw [findEquivalences_of_nextPair? (s := s.more) hpair]
    refine (if_neg (Nat.succ_ne_zero _)).trans ((if_neg hbelow).trans ((if_neg ?_).trans ?_))
    · rw [State.more_spend hbudget]
      exact Nat.succ_ne_zero _
    · dsimp only
      rw [hrest]

theorem length_untested_nil (free : List Var) : (untested free []).length = free.length * free.length := by
  unfold untested
  rw [List.filter_eq_self.2 fun pair _ => by simp, List.length_flatMap]
  simp only [List.length_map]
  rw [List.map_const', List.sum_replicate_nat]

/-- The variables that no unit is about. -/
def remaining (units : List Literal) (vars : List Var) : List Var :=
  vars.filter fun v => !(units.map Literal.var).contains v

theorem run_eq (budget : Nat) (vars : List Var) : run probe budget vars first =
    let units := findUnits probe first vars (.initial budget)
    let found := findEquivalences probe first (remaining units.1 vars) [] units.2
    { units := units.1, equivalences := found.1, asked := found.2.asked } := rfl

/-- A budget of which some is left in the end suffices, because a greater one would not be touched. -/
theorem suffices_of_asked_lt {budget : Nat} {vars : List Var} (h : (run probe budget vars first).asked < budget) :
    Suffices probe budget vars first := by
  obtain ⟨-, htotal⟩ := (leads_findUnits probe first vars (.initial budget)).of_initial
  rw [run_eq] at h
  dsimp only at h
  obtain ⟨hle, -, htotal'⟩ := leads_findEquivalences probe first
    (remaining (findUnits probe first vars (.initial budget)).1 vars) []
    (findUnits probe first vars (.initial budget)).2
  have hunits : findUnits probe first vars (.initial (budget + 1)) = _ :=
    findUnits_more (s := .initial budget) (by omega)
  unfold Suffices
  rw [run_eq, run_eq, hunits]
  dsimp only
  rw [findEquivalences_more (by omega)]
  rfl

/-- One question for each variable and two for each pair are always enough, as no pair is tested twice. -/
theorem suffices_of_lt {budget : Nat} {vars : List Var}
    (h : vars.length + 2 * (vars.length * vars.length) < budget) : Suffices probe budget vars first := by
  obtain ⟨hunits, -⟩ := (leads_findUnits probe first vars (.initial budget)).of_initial
  refine suffices_of_asked_lt ?_
  rw [run_eq]
  generalize findUnits probe first vars (.initial budget) = result at hunits
  obtain ⟨units, s⟩ := result
  dsimp only at hunits ⊢
  obtain ⟨-, hfound, -⟩ := leads_findEquivalences probe first (remaining units vars) [] s
  have hlength : (remaining units vars).length ≤ vars.length := List.length_filter_le _ _
  have hsquare := Nat.mul_le_mul hlength hlength
  rw [length_untested_nil] at hfound
  omega

/-- The questions asked are paid from the budget. -/
theorem asked_run_le (budget : Nat) (vars : List Var) : (run probe budget vars first).asked ≤ budget := by
  obtain ⟨-, hunits⟩ := (leads_findUnits probe first vars (.initial budget)).of_initial
  rw [run_eq]
  generalize findUnits probe first vars (.initial budget) = result at hunits
  have hfound := (leads_findEquivalences probe first (remaining result.1 vars) [] result.2).total
  dsimp only
  omega

end Budget

section Complete

variable {probe : Probe} {numVars : Nat} {M : (Var → Bool) → Prop} {first : Array Bool}

theorem Decides.spend (hprobe : Decides probe numVars M) {s : State} (hmodels : ∀ m ∈ s.models, M (valueAt m))
    {extra : List Literal} (hextra : ∀ l ∈ extra, l.var < numVars) :
    ∀ m ∈ (s.spend (probe extra)).models, M (valueAt m) := by
  intro m hm
  cases List.mem_append.1 hm with
  | inl hm => exact (hprobe.model hextra (Option.mem_toList.1 hm)).1
  | inr hm => exact hmodels m hm

/-- The models that are met are in `M`, and a variable that has one value in `M` is found with it: the question about
the other value is refuted, and no model on the way could have spared it. -/
theorem findUnits_complete (hprobe : Decides probe numVars M) (hfirst : M (valueAt first)) {vs : List Var}
    (hvs : ∀ v ∈ vs, v < numVars) {s : State} (hmodels : ∀ m ∈ s.models, M (valueAt m)) :
    (∀ m ∈ (findUnits probe first vs s).2.models, M (valueAt m)) ∧
    ((findUnits probe first vs s).2.budget ≠ 0 → ∀ v ∈ vs, ∀ b, Forced M v b →
      ⟨v, b⟩ ∈ (findUnits probe first vs s).1) := by
  fun_induction findUnits probe first vs s with
  | case1 s => exact ⟨hmodels, fun _ v hv => absurd hv List.not_mem_nil⟩
  | case2 v vs s value hapart ih =>
    obtain ⟨-, hvs⟩ := List.forall_mem_cons.1 hvs
    obtain ⟨hend, hunits⟩ := ih hvs hmodels
    refine ⟨hend, fun hbudget => List.forall_mem_cons.2 ⟨fun b hforced => ?_, hunits hbudget⟩⟩
    obtain ⟨m, hm, hne⟩ := List.any_eq_true.1 hapart
    have heq : valueAt m v = valueAt first v := (hforced _ (hmodels m hm)).trans (hforced _ hfirst).symm
    exact absurd heq (bne_iff_ne.1 hne)
  | case3 v vs s value _ hbudget => exact ⟨hmodels, fun h => absurd hbudget h⟩
  | case4 v vs s value _ _ answer units rest heq ih =>
    obtain ⟨hv, hvs⟩ := List.forall_mem_cons.1 hvs
    have hextra : ∀ l ∈ [(⟨v, !value⟩ : Literal)], l.var < numVars := List.forall_mem_singleton.2 hv
    rw [heq] at ih
    obtain ⟨hend, hunits⟩ := ih hvs (hprobe.spend hmodels hextra)
    refine ⟨hend, fun hbudget => List.forall_mem_cons.2 ⟨fun b hforced => ?_, fun u hu b hforced => ?_⟩⟩
    · have hb : value = b := hforced _ hfirst
      subst hb
      cases hanswer : answer with
      | none => exact List.mem_cons_self
      | some m =>
        obtain ⟨hm, hholds⟩ := hprobe.model hextra hanswer
        have heq : valueAt m v = !value := Literal.holds_mk.1 (hholds _ (List.mem_singleton_self _))
        rw [hforced _ hm] at heq
        exact absurd heq (by simp)
    · have hmem := hunits hbudget u hu b hforced
      dsimp only
      split
      · exact hmem
      · exact List.mem_cons_of_mem _ hmem

theorem together_of_linked (hfirst : M (valueAt first)) {models : List (Array Bool)}
    (hmodels : ∀ m ∈ models, M (valueAt m)) {u v : Var} {c : Bool} (h : Linked M v u c) :
    together first models u v = true := by
  have hsum : ∀ m : Array Bool, M (valueAt m) → (valueAt m u ^^ valueAt m v) = c := by
    intro m hm
    rw [h _ hm, ← Bool.xor_assoc, Bool.xor_self, Bool.false_xor]
  refine List.all_eq_true.2 fun m hm => ?_
  rw [beq_iff_eq, hsum m (hmodels m hm), hsum first hfirst]

theorem together_of_cons {m : Array Bool} {models : List (Array Bool)} {u v : Var}
    (h : together first (m :: models) u v = true) : together first models u v = true :=
  List.all_eq_true.2 fun k hk => List.all_eq_true.1 h k (List.mem_cons_of_mem m hk)

/-- What is set apart stays so. -/
theorem together_cons_eq_false {models : List (Array Bool)} {u v : Var} (h : together first models u v = false)
    (m : Array Bool) : together first (m :: models) u v = false :=
  Bool.eq_false_iff.2 fun htogether => Bool.eq_false_iff.1 h (together_of_cons htogether)

/-- A model of the assumptions that set two variables apart does so. -/
theorem not_together_of_apart {u v : Var} {b : Bool} {m : Array Bool}
    (h : ∀ l ∈ apart u v (valueAt first u ^^ valueAt first v) b, l.holds (valueAt m) = true)
    (models : List (Array Bool)) : together first (m :: models) u v = false := by
  rw [apart, List.forall_mem_cons, List.forall_mem_singleton, Literal.holds_mk, Literal.holds_mk] at h
  have hne : ((valueAt m u ^^ valueAt m v) == (valueAt first u ^^ valueAt first v)) = false := by
    rw [h.1, h.2]
    cases b <;> cases valueAt first u <;> cases valueAt first v <;> rfl
  unfold together
  rw [List.all_cons, hne, Bool.false_and]

/-- Whether every tested pair is linked, or set apart by the models. It stays so in later states, because models are
only added. -/
def Explored (M : (Var → Bool) → Prop) (first : Array Bool) (models : List (Array Bool))
    (tested : List (Var × Var)) : Prop :=
  ∀ pair ∈ tested, (∃ c, Linked M pair.2 pair.1 c) ∨ together first models pair.1 pair.2 = false

theorem Explored.cons_model {models : List (Array Bool)} {tested : List (Var × Var)}
    (h : Explored M first models tested) (answer : Option (Array Bool)) :
    Explored M first (answer.toList ++ models) tested := by
  intro pair hpair
  refine (h pair hpair).imp_right fun hapart => ?_
  cases answer with
  | none => exact hapart
  | some m => exact together_cons_eq_false hapart m

/-- Whether `u` is the first of the variables that `v` is linked to, among those that are not known. -/
structure FirstLink (M : (Var → Bool) → Prop) (free : List Var) (v u : Var) (c : Bool) : Prop where
  mem : u ∈ free
  lt : u < v
  linked : Linked M v u c
  first : ∀ w ∈ free, w < u → ∀ d, ¬Linked M v w d

/-- A variable that is linked to a smaller one is linked to a first one. -/
theorem exists_firstLink {free : List Var} {v u : Var} (hu : u ∈ free) (huv : u < v) {c : Bool}
    (h : Linked M v u c) : ∃ w d, FirstLink M free v w d := by
  induction u using Nat.strongRecOn generalizing c with
  | ind u ih =>
    by_cases hsmaller : ∃ w ∈ free, w < u ∧ ∃ d, Linked M v w d
    · obtain ⟨w, hw, hwu, d, hd⟩ := hsmaller
      exact ih w hwu hw (Nat.lt_trans hwu huv) hd
    · exact ⟨u, c, hu, huv, h, fun w hw hwu d hd => hsmaller ⟨w, hw, hwu, d, hd⟩⟩

/-- With nothing left to be tested, the first variable that goes together with `v` was tested against it. This is what
the search for the next pair looks for. -/
theorem mem_tested_of_nextPair? {models : List (Array Bool)} {free : List Var} {tested : List (Var × Var)}
    (hsorted : free.Pairwise (· < ·)) (hnone : nextPair? first models free tested = none) {u v : Var}
    (hu : u ∈ free) (hv : v ∈ free) (huv : u < v) (htogether : together first models u v = true) :
    ∃ w ∈ free, w ≤ u ∧ together first models w v = true ∧ (w, v) ∈ tested := by
  have hlast := List.findSome?_eq_none_iff.1 hnone v hv
  cases hfind : free.find? fun w => together first models w v with
  | none =>
    have hnot := List.find?_eq_none.1 hfind u hu
    exact absurd htogether hnot
  | some w =>
    obtain ⟨hw, before, after, heq, hbefore⟩ := List.find?_eq_some_iff_append.1 hfind
    have hmem : w ∈ free := List.mem_of_find?_eq_some hfind
    have hle : w ≤ u := by
      subst heq
      obtain ⟨-, hpairwise, -⟩ := List.pairwise_append.1 hsorted
      cases List.mem_append.1 hu with
      | inl hu =>
        have hnot := hbefore u hu
        rw [htogether] at hnot
        cases hnot
      | inr hu =>
        cases List.mem_cons.1 hu with
        | inl heq => exact Nat.le_of_eq heq.symm
        | inr hu => exact Nat.le_of_lt ((List.pairwise_cons.1 hpairwise).1 u hu)
    refine ⟨w, hmem, hle, hw, ?_⟩
    rw [hfind] at hlast
    dsimp only at hlast
    split at hlast
    · next htested =>
      exact htested.resolve_left fun heq => Nat.not_le_of_lt huv (heq ▸ hle)
    · cases hlast

/-- With nothing left to be tested, every variable was tested against the first one that it is linked to: linked
variables go together in all models, and a smaller one that went together with it would have been tested before. -/
theorem FirstLink.mem_tested {free : List Var} {u v : Var} {c : Bool} (h : FirstLink M free v u c)
    (hsorted : free.Pairwise (· < ·)) (hfirst : M (valueAt first)) {models : List (Array Bool)}
    (hmodels : ∀ m ∈ models, M (valueAt m)) {tested : List (Var × Var)} (hexplored : Explored M first models tested)
    (hnone : nextPair? first models free tested = none) (hv : v ∈ free) : (u, v) ∈ tested := by
  have htogether := together_of_linked hfirst hmodels h.linked
  obtain ⟨w, hw, hle, hwv, htested⟩ := mem_tested_of_nextPair? hsorted hnone h.mem hv h.lt htogether
  cases Nat.lt_or_eq_of_le hle with
  | inl hlt =>
    cases hexplored _ htested with
    | inl hlinked =>
      obtain ⟨d, hd⟩ := hlinked
      exact absurd hd (h.first w hw hlt d)
    | inr hapart =>
      rw [hwv] at hapart
      cases hapart
  | inr heq => exact heq ▸ htested

/-- A linked pair is not the one that was set apart. -/
theorem not_mem_cons_of_linked {u v x y : Var} {c : Bool} (h : Linked M v u c) (hnot : ∀ c, ¬Linked M y x c)
    {tested : List (Var × Var)} (hnew : (u, v) ∉ tested) : (u, v) ∉ (x, y) :: tested := by
  intro hmem
  cases List.mem_cons.1 hmem with
  | inl heq =>
    cases heq
    exact hnot c h
  | inr hmem => exact hnew hmem

theorem lt_of_mem_apart {u v : Var} (hu : u < numVars) (hv : v < numVars) {inverted b : Bool} :
    ∀ l ∈ apart u v inverted b, l.var < numVars :=
  List.forall_mem_cons.2 ⟨hu, List.forall_mem_singleton.2 hv⟩

/-- When a question sets two variables apart, they are not linked, and the models show it from then on. -/
theorem Decides.apart (hprobe : Decides probe numVars M) (hfirst : M (valueAt first)) {u v : Var}
    (hu : u < numVars) (hv : v < numVars) {b : Bool} {answer : Option (Array Bool)}
    (hanswer : probe (apart u v (valueAt first u ^^ valueAt first v) b) = answer) (hsome : answer.isSome) :
    (∀ c, ¬Linked M v u c) ∧ ∀ models, together first (answer.toList ++ models) u v = false := by
  obtain ⟨m, rfl⟩ := Option.isSome_iff_exists.1 hsome
  obtain ⟨hm, hholds⟩ := hprobe.model (lt_of_mem_apart hu hv) hanswer
  refine ⟨fun c hlinked => ?_, not_together_of_apart hholds⟩
  have htogether := together_of_linked hfirst (List.forall_mem_singleton.2 hm) hlinked
  rw [not_together_of_apart hholds] at htogether
  cases htogether

/-- When nothing in `M` sets two variables apart, they are linked. -/
theorem linked_of_not_apart {u v : Var} {inverted : Bool}
    (h : ∀ b a, M a → ¬∀ l ∈ Probing.apart u v inverted b, l.holds a = true) : Linked M v u inverted := by
  intro a ha
  by_contra hne
  refine h (a u) a ha (List.forall_mem_cons.2 ⟨Literal.holds_mk.2 rfl, List.forall_mem_singleton.2 ?_⟩)
  exact Literal.holds_mk.2 (Bool.eq_not.2 hne)

theorem Decides.linked (hprobe : Decides probe numVars M) {u v : Var} (hu : u < numVars) (hv : v < numVars)
    {inverted : Bool} (hbelow : ¬(probe (Probing.apart u v inverted false)).isSome = true)
    (habove : ¬(probe (Probing.apart u v inverted true)).isSome = true) : Linked M v u inverted := by
  refine linked_of_not_apart fun b => hprobe.refutes _ (lt_of_mem_apart hu hv) ?_
  cases b with
  | false => exact Option.not_isSome_iff_eq_none.1 hbelow
  | true => exact Option.not_isSome_iff_eq_none.1 habove

/-- A variable is found to be equivalent to the first of the variables that it is linked to. The pairs tested so far
stay settled: one that is set apart stays so in all later states, because models are only added. -/
theorem findEquivalences_complete (hprobe : Decides probe numVars M) (hfirst : M (valueAt first))
    {free : List Var} (hfree : ∀ v ∈ free, v < numVars) (hsorted : free.Pairwise (· < ·))
    {tested : List (Var × Var)} {s : State} (hmodels : ∀ m ∈ s.models, M (valueAt m))
    (hexplored : Explored M first s.models tested)
    (hbudget : (findEquivalences probe first free tested s).2.budget ≠ 0) {u v : Var} {c : Bool} (hv : v ∈ free)
    (hlink : FirstLink M free v u c) (hnew : (u, v) ∉ tested) :
    (⟨u, true⟩, ⟨v, !c⟩) ∈ (findEquivalences probe first free tested s).1 := by
  have hpairs : ∀ {tested : List (Var × Var)} {models : List (Array Bool)} {x y : Var},
      nextPair? first models free tested = some (x, y) → x < numVars ∧ y < numVars := by
    intro tested models x y hpair
    obtain ⟨hx, hy, -⟩ := nextPair?_spec hpair
    exact ⟨hfree x hx, hfree y hy⟩
  fun_induction findEquivalences probe first free tested s with
  | case1 tested s hnone => exact absurd (hlink.mem_tested hsorted hfirst hmodels hexplored hnone hv) hnew
  | case2 tested s x y hpair _ hzero => exact absurd hzero hbudget
  | case3 tested s x y hpair _ inverted _ below s' hbelow ih =>
    obtain ⟨hx, hy⟩ := hpairs hpair
    obtain ⟨hnot, hapart⟩ := hprobe.apart hfirst hx hy rfl hbelow
    exact ih (hprobe.spend hmodels (lt_of_mem_apart hx hy))
      (List.forall_mem_cons.2 ⟨.inr (hapart _), hexplored.cons_model below⟩) hbudget
      (not_mem_cons_of_linked hlink.linked hnot hnew)
  | case4 tested s x y hpair _ inverted _ below s' _ hzero => exact absurd hzero hbudget
  | case5 tested s x y hpair _ inverted _ below s' hbelow _ above s'' found rest heq ih =>
    obtain ⟨hx, hy⟩ := hpairs hpair
    rw [heq] at ih
    have hnext : ∀ m ∈ s''.models, M (valueAt m) :=
      hprobe.spend (hprobe.spend hmodels (lt_of_mem_apart hx hy)) (lt_of_mem_apart hx hy)
    have hexplored' : Explored M first s''.models tested := (hexplored.cons_model below).cons_model above
    by_cases habove : above.isSome = true
    · obtain ⟨hnot, hapart⟩ := hprobe.apart hfirst hx hy rfl habove
      dsimp only
      rw [if_pos habove]
      exact ih hnext (List.forall_mem_cons.2 ⟨.inr (hapart _), hexplored'⟩) hbudget
        (not_mem_cons_of_linked hlink.linked hnot hnew)
    · have hlinked : Linked M y x inverted := hprobe.linked hx hy hbelow habove
      dsimp only
      rw [if_neg habove, List.mem_cons]
      by_cases hsame : (u, v) = (x, y)
      · cases hsame
        have hc : c = inverted := by
          have hboth := (hlink.linked _ hfirst).symm.trans (hlinked _ hfirst)
          exact Bool.xor_right_inj.1 hboth
        exact .inl (by rw [hc])
      · refine .inr (ih hnext (List.forall_mem_cons.2 ⟨.inl ⟨inverted, hlinked⟩, hexplored'⟩) hbudget ?_)
        rw [List.mem_cons, not_or]
        exact ⟨hsame, hnew⟩

theorem run_complete_of_asked_lt (hprobe : Decides probe numVars M) (hfirst : M (valueAt first)) {vars : List Var}
    (hvars : ∀ v ∈ vars, v < numVars) (hsorted : vars.Pairwise (· < ·)) {budget : Nat}
    (hbudget : (run probe budget vars first).asked < budget) :
    (∀ v ∈ vars, ∀ b, Forced M v b → ⟨v, b⟩ ∈ (run probe budget vars first).units) ∧
    ∀ v ∈ vars, (∀ b, ¬Forced M v b) → ∀ u c, FirstLink M vars v u c →
      (⟨u, true⟩, ⟨v, !c⟩) ∈ (run probe budget vars first).equivalences := by
  have hsound : ∀ l ∈ (findUnits probe first vars (.initial budget)).1, Forced M l.var l.positive :=
    fun l hl a ha => Literal.holds_mk.1 (holds_of_mem_findUnits hprobe.refutes hvars hl ha)
  obtain ⟨hmodels, hunits⟩ := findUnits_complete hprobe hfirst hvars (s := .initial budget) (List.forall_mem_nil _)
  obtain ⟨-, hpaid⟩ := (leads_findUnits probe first vars (.initial budget)).of_initial
  rw [run_eq] at hbudget ⊢
  generalize findUnits probe first vars (.initial budget) = result at hsound hmodels hunits hpaid hbudget
  obtain ⟨units, s⟩ := result
  dsimp only at hsound hmodels hunits hpaid hbudget ⊢
  obtain ⟨hle, -, htotal⟩ := leads_findEquivalences probe first (remaining units vars) [] s
  have hmem : ∀ v ∈ vars, (∀ b, ¬Forced M v b) → v ∈ remaining units vars := by
    intro v hv hnot
    refine List.mem_filter.2 ⟨hv, ?_⟩
    rw [Bool.not_eq_true', List.contains_eq_mem, decide_eq_false_iff_not]
    intro hunit
    obtain ⟨l, hl, rfl⟩ := List.mem_map.1 hunit
    exact hnot _ (hsound l hl)
  have hleft : (findEquivalences probe first (remaining units vars) [] s).2.budget ≠ 0 := by omega
  refine ⟨hunits (by omega), fun v hv hnot u c hlink => ?_⟩
  have hu : ∀ b, ¬Forced M u b := fun b hb => hnot _ (hlink.linked.forced hb)
  refine findEquivalences_complete hprobe hfirst ?_ (hsorted.filter _) hmodels (List.forall_mem_nil _) hleft
    (hmem v hv hnot) ⟨hmem u hlink.mem hu, hlink.lt, hlink.linked, fun w hw => ?_⟩ List.not_mem_nil
  · exact fun x hx => hvars x (List.mem_filter.1 hx).1
  · exact hlink.first w (List.mem_filter.1 hw).1

/-- With a budget that suffices, probing finds every variable that has one value in all models, and leads every other
variable that is linked to smaller ones back to the first of them. This does not depend on the models that are met on
the way: they only save questions whose answer they know. -/
theorem run_complete (hprobe : Decides probe numVars M) (hfirst : M (valueAt first)) {vars : List Var}
    (hvars : ∀ v ∈ vars, v < numVars) (hsorted : vars.Pairwise (· < ·)) {budget : Nat}
    (hbudget : Suffices probe budget vars first) :
    (∀ v ∈ vars, ∀ b, Forced M v b → ⟨v, b⟩ ∈ (run probe budget vars first).units) ∧
    ∀ v ∈ vars, (∀ b, ¬Forced M v b) → ∀ u c, FirstLink M vars v u c →
      (⟨u, true⟩, ⟨v, !c⟩) ∈ (run probe budget vars first).equivalences := by
  have hasked : (run probe (budget + 1) vars first).asked < budget + 1 := by
    rw [hbudget]
    exact Nat.lt_succ_of_le (asked_run_le budget vars)
  rw [← hbudget]
  exact run_complete_of_asked_lt hprobe hfirst hvars hsorted hasked

end Complete

end Probing

/-- Whether the report names every variable that has one value in all models of the query, and every other variable
that is linked to smaller ones together with the first of these. -/
structure Report.Complete (q : Query) (r : Report) : Prop where
  units : ∀ v ∈ q.unassumed, ∀ b, Forced (q.Holds ·) v b → ⟨v, b⟩ ∈ r.units
  equivalences : ∀ v ∈ q.unassumed, (∀ b, ¬Forced (q.Holds ·) v b) → ∀ u c,
    Probing.FirstLink (q.Holds ·) q.unassumed v u c → (⟨u, true⟩, ⟨v, !c⟩) ∈ r.equivalences

namespace Decider

variable {decide : Decider} {q : Query} {model : Array Bool}

/-- Whether the budget of the query suffices for the model that the procedure finds, whatever the answers to the
probes are. -/
def Suffices (decide : Decider) (q : Query) : Prop :=
  ∀ model, decide q.numVars q.clauses q.assumptions = some model →
    Probing.Suffices (fun extra => decide q.numVars q.clauses (q.assumptions ++ extra)) q.maxConflicts q.unassumed model

theorem length_unassumed_le (q : Query) : q.unassumed.length ≤ q.numVars := by
  have hfilter := List.length_filter_le (fun v => !(q.assumptions.map Literal.var).contains v) (List.range q.numVars)
  rwa [List.length_range] at hfilter

theorem suffices_of_lt (h : q.numVars + 2 * (q.numVars * q.numVars) < q.maxConflicts) : decide.Suffices q := by
  intro model _
  have hlength := length_unassumed_le q
  have hsquare := Nat.mul_le_mul hlength hlength
  exact Probing.suffices_of_lt (by omega)

theorem Correct.decides (hdecide : decide.Correct) (hq : q.Bounded) :
    Probing.Decides (fun extra => decide q.numVars q.clauses (q.assumptions ++ extra)) q.numVars (q.Holds ·) where
  refutes := hdecide.refutes hq
  model {extra m} hextra hm := by
    have hholds := hdecide.model hq.clauses (List.forall_mem_append.2 ⟨hq.assumptions, hextra⟩) hm
    obtain ⟨hassumptions, hholds'⟩ := List.forall_mem_append.1 hholds.assumptions
    exact ⟨⟨hholds.clauses, hassumptions⟩, hholds'⟩

theorem mem_unassumed {v : Var} : v ∈ q.unassumed ↔ v < q.numVars ∧ ∀ l ∈ q.assumptions, l.var ≠ v := by
  unfold Query.unassumed
  simp

/-- What the probing solver reports about a satisfiable query is complete, if the budget suffices. The order in which
it reports the equivalences is that in which they were found. -/
theorem solver_complete (hdecide : decide.Correct) (hq : q.Bounded) (hbudget : decide.Suffices q)
    (hmodel : decide q.numVars q.clauses q.assumptions = some model) :
    ∃ report, decide.solver q = .ok report ∧ report.outcome = .sat ∧ report.Complete q := by
  have hholds : q.Holds (Probing.valueAt model) := hdecide.model hq.clauses hq.assumptions hmodel
  have hsorted : q.unassumed.Pairwise (· < ·) := List.pairwise_lt_range.filter _
  obtain ⟨hunits, hequivalences⟩ := Probing.run_complete (hdecide.decides hq) hholds
    (fun v hv => (mem_unassumed.1 hv).1) hsorted (hbudget model hmodel)
  exact ⟨_, solver_of_some hmodel, rfl, hunits, hequivalences⟩

end Decider

end BoolPoly
