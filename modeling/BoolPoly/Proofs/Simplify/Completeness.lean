import BoolPoly.Proofs.EquationSystem.Representation
import BoolPoly.Proofs.Simplify.Decision
import BoolPoly.Proofs.Solver.Exhaustion
import Mathlib.Logic.Function.Basic

open Std

namespace BoolPoly

namespace Fact

variable {fact : Fact}

theorem States.settles_of_value {v : Var} {b : Bool} (h : fact.States (.ofVar v + .constant b)) :
    fact.Settles v := by
  have hterms := Polynomial.terms_ofMonomial_add_constant (Polynomial.ofVar_ne_one v) b
  change (Polynomial.ofVar v + Polynomial.constant b).terms = [Monomial.ofVar v] at hterms
  cases h with
  | value h =>
    rw [hterms, List.singleton_inj] at h
    exact Polynomial.ofVar_injective h
  | allOne h _ =>
    rw [hterms, List.singleton_inj] at h
    exact h ▸ Monomial.mem_vars_ofVar.2 rfl
  | equal h =>
    rw [hterms] at h
    cases h

/-- Of two variables the greater one is settled, whichever of them comes first in the polynomial. -/
theorem States.settles_of_equal {u v : Var} (huv : u < v) {b : Bool}
    (h : fact.States (.ofVar u + .ofVar v + .constant b)) : fact.Settles v := by
  have hperm := Polynomial.terms_ofVar_add_ofVar (Nat.ne_of_lt huv) b
  cases h with
  | value h =>
    rw [h] at hperm
    exact absurd hperm.length_eq (by simp)
  | allOne h _ =>
    rw [h] at hperm
    exact absurd hperm.length_eq (by simp)
  | @equal x y h =>
    rw [h] at hperm
    have hmem : ∀ w, Monomial.ofVar w ∈ [Monomial.ofVar u, Monomial.ofVar v] → w = x ∨ w = y := by
      intro w hw
      rw [← hperm.mem_iff, List.mem_cons, List.mem_singleton] at hw
      exact hw.imp Polynomial.ofVar_injective Polynomial.ofVar_injective
    have hu := hmem u (by simp)
    have hv := hmem v (by simp)
    cases hv with
    | inl hv =>
      subst hv
      have hy : u = y := hu.resolve_left (Nat.ne_of_lt huv)
      exact (Nat.max_eq_left (Nat.le_of_lt (hy ▸ huv))).symm
    | inr hv =>
      subst hv
      have hx : u = x := hu.resolve_right (Nat.ne_of_lt huv)
      exact (Nat.max_eq_right (Nat.le_of_lt (hx ▸ huv))).symm

end Fact

namespace Encoding

variable {e : Encoding} {u v : Var}

theorem unitPolynomial?_of_lt (hv : v < e.numSystemVars) (b : Bool) :
    e.unitPolynomial? ⟨v, b⟩ = some (.ofVar v + .constant b) := by
  have hdegree : ¬(1 < (Monomial.ofVar v).degree ∧ b = false) := fun h => Nat.lt_irrefl 1 h.1
  rw [unitPolynomial?, monomialOf?_of_lt hv, Option.bind_eq_bind, Option.bind_some, if_neg hdegree]
  rfl

theorem equivalencePolynomial?_of_lt (hu : u < e.numSystemVars) (hv : v < e.numSystemVars) (c : Bool) :
    e.equivalencePolynomial? (⟨u, true⟩, ⟨v, !c⟩) = some (.ofVar u + .ofVar v + .constant c) := by
  have hdegree : ¬(1 < (Monomial.ofVar u).degree ∨ 1 < (Monomial.ofVar v).degree) :=
    fun h => h.elim (Nat.lt_irrefl 1) (Nat.lt_irrefl 1)
  rw [equivalencePolynomial?, monomialOf?_of_lt hu, monomialOf?_of_lt hv, Option.bind_eq_bind, Option.bind_some,
    Option.bind_some, if_neg hdegree, Bool.true_xor, Bool.not_not]
  rfl

end Encoding

namespace EquationSystem

variable {s t : EquationSystem} {p : Polynomial}

/-- Learning a fact about free variables settles what the fact settles: the polynomial is resolved already, and the
fact is read off it as it is. -/
theorem not_free_of_learn (hs : s.FactsValid) (hp : ∀ v ∈ p.vars, v < s.numVars) (hfree : ∀ v ∈ p.vars, s.Free v)
    {fact : Fact} (hfact : fact.States p) {v : Var} (hsettles : ∀ fact : Fact, fact.States p → fact.Settles v) :
    ¬(s.learn p).2.Free v := by
  obtain ⟨fact, hrecognised⟩ := Option.ne_none_iff_exists'.1 hfact.recognised
  have hstates := Fact.states_of_ofPolynomial? hrecognised
  have hresolve : s.resolve p = p := resolve_of_free hfree
  have hlearn : Fact.ofPolynomial? ((s.reserve p).resolve p) = some fact := by
    rw [reserve_of_lt hp, hresolve, hrecognised]
  rw [learn_of_fact hlearn, reserve_of_lt hp]
  intro h
  have hgrow := absorbs_propagate (absorbs_record hs (hresolve.symm ▸ hstates)).valid
  exact (free_record.1 (hgrow.grow.free h)).2 (hsettles fact hstates)

section Steps

/-- Steps that each keep the solutions do so together, whatever they are about. -/
theorem keeps_foldl {α : Type} {f : EquationSystem → α → EquationSystem} {xs : List α} (hs : s.Valid)
    (hf : ∀ t, s.Keeps t → ∀ x ∈ xs, t.Keeps (f t x)) : s.Keeps (xs.foldl f s) :=
  List.foldlRecOn (motive := s.Keeps) xs f (.refl hs) fun t ht x hx => ht.trans (hf t ht x hx)

/-- Among such steps each one is taken at some time. -/
theorem exists_step_of_mem {α : Type} {f : EquationSystem → α → EquationSystem} {xs : List α} (hs : s.Valid)
    (hf : ∀ t, s.Keeps t → ∀ x ∈ xs, t.Keeps (f t x)) {x : α} (hx : x ∈ xs) :
    ∃ t, s.Keeps t ∧ (f t x).Keeps (xs.foldl f s) := by
  obtain ⟨before, after, rfl⟩ := List.append_of_mem hx
  obtain ⟨hbefore, hafter⟩ := List.forall_mem_append.1 (fun x hx t ht => hf t ht x hx)
  obtain ⟨hstep, hafter⟩ := List.forall_mem_cons.1 hafter
  have hfirst : s.Keeps (before.foldl f s) := keeps_foldl hs fun t ht x hx => hbefore x hx t ht
  have hnext := hfirst.trans (hstep _ hfirst)
  refine ⟨before.foldl f s, hfirst, ?_⟩
  rw [List.foldl_append, List.foldl_cons]
  exact keeps_foldl hnext.valid fun t ht x hx => hafter x hx t (hnext.trans ht)

/-- Every candidate that is offered is learnt at some time, in a system with the same solutions as the first one. -/
theorem exists_learn_of_mem (hs : s.Valid) {ps : List Polynomial} (hps : ∀ p ∈ ps, s.Entails p) (hp : p ∈ ps) :
    ∃ t, s.Keeps t ∧ (t.learn p).2.Keeps (s.learnAll ps).2 := by
  have hlearnAll : (s.learnAll ps).2 = ps.foldl (fun s p => (s.learn p).2) s :=
    (List.foldl_hom Prod.snd fun _ _ => rfl).symm
  rw [hlearnAll]
  exact exists_step_of_mem hs (fun t ht q hq => keeps_learn ht.valid (ht.entails (hps q hq))) hp

variable {config : Config} {e : Encoding} {report : Report}

theorem exists_learn_of_mem_candidates (hs : s.Valid) (he : Encoding.ofSystem s config = .ok e)
    (hfacts : ∀ a, (queryOf e config).Holds a → report.Holds a) (stage : Stage)
    (hp : ∀ t, p ∈ e.candidates report t stage) :
    ∃ t, s.Keeps t ∧ t.Entails p ∧ (t.learn p).2.Keeps (s.learnReport e report).2 := by
  have hentails : ∀ t, s.Keeps t → ∀ stage, ∀ q ∈ e.candidates report t stage, t.Entails q :=
    fun t ht stage q hq => ht.entails (entails_of_mem_candidates hs he hfacts hq)
  have hlearnReport : (s.learnReport e report).2 =
      Stage.pipeline.foldl (fun s stage => (s.learnAll (e.candidates report s stage)).2) s :=
    (List.foldl_hom Prod.snd fun _ _ => rfl).symm
  have hstage : stage ∈ Stage.pipeline := by cases stage <;> decide
  rw [hlearnReport]
  obtain ⟨t, ht, hstage⟩ := exists_step_of_mem (f := fun s stage => (s.learnAll (e.candidates report s stage)).2) hs
    (fun t ht stage _ => keeps_learnAll ht.valid (hentails t ht stage)) hstage
  obtain ⟨u, hu, hlearn⟩ := exists_learn_of_mem ht.valid (hentails t ht stage) (hp t)
  exact ⟨u, ht.trans hu, hu.entails (hentails t ht stage p (hp t)), hlearn.trans hstage⟩

/-- A variable that a candidate settles is not free in the end, if the candidate's variables are free as long as it
is. Facts only grow, so it makes no difference at which time it was settled. -/
theorem not_free_of_mem_candidates (hs : s.Valid) (he : Encoding.ofSystem s config = .ok e)
    (hfacts : ∀ a, (queryOf e config).Holds a → report.Holds a) (stage : Stage)
    (hp : ∀ t, p ∈ e.candidates report t stage) {v : Var}
    (hfree : ∀ t, s.Keeps t → t.Free v → ∀ x ∈ p.vars, t.Free x) {fact : Fact} (hfact : fact.States p)
    (hsettles : ∀ fact : Fact, fact.States p → fact.Settles v) : ¬(s.learnReport e report).2.Free v := by
  intro hv
  obtain ⟨t, hst, hentails, hend⟩ := exists_learn_of_mem_candidates hs he hfacts stage hp
  have hstill : t.Free v := (keeps_learn hst.valid hentails).grow.free (hend.grow.free hv)
  exact not_free_of_learn hst.valid.facts hentails.1 (hfree t hst hstill) hfact hsettles (hend.grow.free hv)

end Steps

section Saturated

/-- Whether the facts leave nothing to be said about single variables and pairs of variables: no free variable has one
value in all solutions, and none can be read off a smaller one. -/
structure Saturated (s : EquationSystem) : Prop where
  not_forced : ∀ {v : Var} {b : Bool}, s.Free v → ¬Forced (Solves · s) v b
  not_linked : ∀ {v u : Var} {c : Bool}, s.Free v → u < v → ¬Linked (Solves · s) v u c

variable {v u : Var}

theorem forced_of_value? {b : Bool} (hv : s.value? v = some b) : Forced (Solves · s) v b :=
  fun _ ha => ha.obeys.value hv

theorem linked_of_replacement? {r : Replacement} (hr : s.replacement? v = some r) :
    Linked (Solves · s) v r.root r.inverted :=
  fun _ ha => ha.obeys.replacement hr

/-- The values of a saturated system are those that its solutions share, so that they do not depend on how they were
found. -/
theorem Saturated.value?_iff (h : s.Saturated) (hs : s.FactsValid) (hsat : ∃ a, Solves a s) {b : Bool} :
    s.value? v = some b ↔ Forced (Solves · s) v b := by
  refine ⟨forced_of_value?, fun hforced => ?_⟩
  obtain ⟨a, ha⟩ := hsat
  cases hvalue : s.value? v with
  | some b' => rw [← hforced a ha, forced_of_value? hvalue a ha]
  | none =>
    cases hr : s.replacement? v with
    | none => exact absurd hforced (h.not_forced ⟨hvalue, hr⟩)
    | some r => exact absurd ((linked_of_replacement? hr).symm.forced hforced) (h.not_forced (hs.root_free hr))

/-- The root of a replacement is the least variable to which the replaced one is linked: a smaller one would be linked
to the root, which is free. -/
theorem Saturated.root_le (h : s.Saturated) (hs : s.FactsValid) {r : Replacement}
    (hr : s.replacement? v = some r) {c : Bool} (hlinked : Linked (Solves · s) v u c) : r.root ≤ u := by
  by_contra hlt
  exact h.not_linked (hs.root_free hr) (Nat.lt_of_not_le hlt) ((linked_of_replacement? hr).symm.trans hlinked)

/-- The replacements of a saturated system lead from the variables without a value to the least variables to which
they are linked. -/
theorem Saturated.replacement?_iff (h : s.Saturated) (hs : s.FactsValid) (hsat : ∃ a, Solves a s)
    {r : Replacement} : s.replacement? v = some r ↔ (∀ b, ¬Forced (Solves · s) v b) ∧ r.root < v ∧
      Linked (Solves · s) v r.root r.inverted ∧ ∀ u c, Linked (Solves · s) v u c → r.root ≤ u := by
  constructor
  · intro hr
    refine ⟨fun b hforced => ?_, hs.root_lt hr, linked_of_replacement? hr, fun u c => h.root_le hs hr⟩
    exact h.not_forced (hs.root_free hr) ((linked_of_replacement? hr).symm.forced hforced)
  · intro hleast
    obtain ⟨hnot, hlt, hlinked, hleast⟩ := hleast
    have hvalue : s.value? v = none := by
      cases hvalue : s.value? v with
      | none => rfl
      | some b => exact absurd (forced_of_value? hvalue) (hnot b)
    cases hq : s.replacement? v with
    | none => exact absurd hlinked (h.not_linked ⟨hvalue, hq⟩ hlt)
    | some q =>
      have hroot : q.root = r.root :=
        Nat.le_antisymm (h.root_le hs hq hlinked) (hleast _ _ (linked_of_replacement? hq))
      obtain ⟨a, ha⟩ := hsat
      have hinverted : q.inverted = r.inverted := by
        have hboth := (linked_of_replacement? hq a ha).symm.trans (hlinked a ha)
        rw [hroot] at hboth
        exact Bool.xor_right_inj.1 hboth
      obtain ⟨root, inverted⟩ := q
      obtain ⟨root', inverted'⟩ := r
      cases hroot
      cases hinverted
      rfl

/-- Whether the facts of a system are those that the assignments in `M` share: the values that variables have in all
of them, and for each other variable that is linked to smaller ones the least of these. -/
structure Canonical (M : (Var → Bool) → Prop) (s : EquationSystem) : Prop where
  value?_iff : ∀ v b, s.value? v = some b ↔ Forced M v b
  replacement?_iff : ∀ v r, s.replacement? v = some r ↔ (∀ b, ¬Forced M v b) ∧ r.root < v ∧
    Linked M v r.root r.inverted ∧ ∀ u c, Linked M v u c → r.root ≤ u

/-- There is only one way to be canonical, because values and replacements are said for every variable. -/
theorem Canonical.facts_eq {M : (Var → Bool) → Prop} (hs : Canonical M s) (ht : Canonical M t) :
    s.values = t.values ∧ s.replacements = t.replacements := by
  constructor
  · refine ExtTreeMap.ext_getElem? fun {v} => Option.ext fun b => ?_
    exact (hs.value?_iff v b).trans (ht.value?_iff v b).symm
  · refine ExtTreeMap.ext_getElem? fun {v} => Option.ext fun r => ?_
    exact (hs.replacement?_iff v r).trans (ht.replacement?_iff v r).symm

theorem Saturated.canonical (h : s.Saturated) (hs : s.FactsValid) (hsat : ∃ a, Solves a s) :
    Canonical (Solves · s) s :=
  ⟨fun _ _ => h.value?_iff hs hsat, fun _ _ => h.replacement?_iff hs hsat⟩

/-- A link to a variable that is not free is a link to a free and smaller one, unless the value is known: the facts
lead on from there. -/
theorem exists_free_link (hs : s.FactsValid) (hunforced : ∀ b, ¬Forced (Solves · s) v b) {c : Bool}
    (h : Linked (Solves · s) v u c) : ∃ w d, s.Free w ∧ w ≤ u ∧ Linked (Solves · s) v w d := by
  cases hvalue : s.value? u with
  | some b => exact absurd (h.forced (forced_of_value? hvalue)) (hunforced _)
  | none =>
    cases hr : s.replacement? u with
    | none => exact ⟨u, c, ⟨hvalue, hr⟩, Nat.le_refl u, h⟩
    | some r =>
      exact ⟨r.root, _, hs.root_free hr, Nat.le_of_lt (hs.root_lt hr), h.trans (linked_of_replacement? hr)⟩

theorem Keeps.solutions_eq (h : s.Keeps t) : (Solves · t) = (Solves · s) := funext fun a => propext (h.solves a)

end Saturated

section Query

variable {config : Config} {e : Encoding} {v u : Var}

/-- The solutions of a system say nothing about variables beyond its own. -/
theorem solves_update (hs : s.Valid) {a : Var → Bool} (ha : Solves a s) (hv : s.numVars ≤ v) (b : Bool) :
    Solves (Function.update a v b) s := by
  refine (solves_congr hs fun x hx => ?_).1 ha
  exact (Function.update_of_ne (Nat.ne_of_lt (Nat.lt_of_lt_of_le hx hv)) b a).symm

theorem lt_of_forced (hs : s.Valid) (hsat : ∃ a, Solves a s) {b : Bool} (h : Forced (Solves · s) v b) :
    v < s.numVars := by
  by_contra hge
  obtain ⟨a, ha⟩ := hsat
  have hupdate := h _ (solves_update hs ha (Nat.not_lt.1 hge) (!b))
  rw [Function.update_self] at hupdate
  exact absurd hupdate (by simp)

theorem lt_of_linked (hs : s.Valid) (hsat : ∃ a, Solves a s) {c : Bool} (huv : u < v)
    (h : Linked (Solves · s) v u c) : v < s.numVars := by
  by_contra hge
  obtain ⟨a, ha⟩ := hsat
  have hupdate := h _ (solves_update hs ha (Nat.not_lt.1 hge) (!(a u ^^ c)))
  rw [Function.update_self, Function.update_of_ne (Nat.ne_of_lt huv)] at hupdate
  exact absurd hupdate (by simp)

variable (hs : s.Valid) (he : Encoding.ofSystem s config = .ok e)
include hs he

theorem mem_unassumed_of_free (hfree : s.Free v) (hv : v < s.numVars) : v ∈ (queryOf e config).unassumed := by
  obtain ⟨hnum, -, -⟩ := hs.encoded he
  rw [Decider.mem_unassumed]
  refine ⟨Nat.lt_of_lt_of_le (hnum ▸ hv) e.numVars_le, fun l hl heq => ?_⟩
  have hvalue := (mem_assumptions hs he).1 hl
  rw [heq, hfree.1] at hvalue
  cases hvalue

/-- What the solutions force a free variable to be, the models of the query force it to be: each of these is a
solution once it is repaired, and repairing changes no free variable. -/
theorem forced_query (hfree : s.Free v) {b : Bool} (h : Forced (Solves · s) v b) :
    Forced ((queryOf e config).Holds ·) v b := by
  intro a ha
  rw [← h _ (solves_repair hs he ha), repair_of_not_replaced hfree.2]

theorem linked_query (hv : s.Free v) (hu : s.Free u) {c : Bool} (h : Linked (Solves · s) v u c) :
    Linked ((queryOf e config).Holds ·) v u c := by
  intro a ha
  have hrepair := h _ (solves_repair hs he ha)
  rwa [repair_of_not_replaced hv.2, repair_of_not_replaced hu.2] at hrepair

theorem forced_of_query (hv : v < s.numVars) {b : Bool} (h : Forced ((queryOf e config).Holds ·) v b) :
    Forced (Solves · s) v b := by
  intro a ha
  obtain ⟨a', hagree, ha'⟩ := exists_model hs he ha
  rw [hagree v hv, h a' ha']

theorem linked_of_query (hv : v < s.numVars) (hu : u < s.numVars) {c : Bool}
    (h : Linked ((queryOf e config).Holds ·) v u c) : Linked (Solves · s) v u c := by
  intro a ha
  obtain ⟨a', hagree, ha'⟩ := exists_model hs he ha
  rw [hagree v hv, hagree u hu, h a' ha']

/-- An unforced variable that is linked to a smaller one has a first link among the variables of the query, which are
those without a known value. -/
theorem exists_firstLink_query (hfree : s.Free v) (hlt : v < s.numVars) (hunforced : ∀ b, ¬Forced (Solves · s) v b)
    (huv : u < v) {c : Bool} (h : Linked (Solves · s) v u c) :
    ∃ w d, Probing.FirstLink ((queryOf e config).Holds ·) (queryOf e config).unassumed v w d := by
  obtain ⟨w, d, hw, hwu, hd⟩ := exists_free_link hs.facts hunforced h
  have hwv : w < v := Nat.lt_of_le_of_lt hwu huv
  exact Probing.exists_firstLink (mem_unassumed_of_free hs he hw (Nat.lt_trans hwv hlt)) hwv
    (linked_query hs he hfree hw hd)

/-- The target of a first link stays free: with a replacement it would not be the first, and with a value the variable
would be forced. -/
theorem free_of_firstLink (hst : s.Keeps t) (hfree : s.Free v) (hlt : v < s.numVars)
    (hunforced : ∀ b, ¬Forced (Solves · s) v b) {c : Bool}
    (h : Probing.FirstLink ((queryOf e config).Holds ·) (queryOf e config).unassumed v u c) : t.Free u := by
  have hu : u < s.numVars := Nat.lt_trans h.lt hlt
  have hlinked := linked_of_query hs he hlt hu h.linked
  rw [← hst.solutions_eq] at hlinked hunforced
  obtain ⟨w, d, hw, hwu, hd⟩ := exists_free_link hst.valid.facts hunforced hlinked
  rw [hst.solutions_eq] at hd
  have hwfree : s.Free w := hst.grow.free hw
  cases Nat.lt_or_eq_of_le hwu with
  | inl hlt' =>
    have hmem := mem_unassumed_of_free hs he hwfree (Nat.lt_trans hlt' hu)
    exact absurd (linked_query hs he hfree hwfree hd) (h.first w hmem hlt' d)
  | inr heq => exact heq ▸ hw

variable {report : Report} (hfacts : ∀ a, (queryOf e config).Holds a → report.Holds a)
  (hcomplete : report.Complete (queryOf e config)) (hsat : ∃ a, Solves a s)
include hfacts hcomplete hsat

/-- No variable that is free after learning a complete report has one value in all solutions: the report has it as a
unit, and learning the unit would have settled it. -/
theorem not_forced_of_free_learnReport (hv : (s.learnReport e report).2.Free v) {b : Bool} :
    ¬Forced (Solves · s) v b := by
  intro hforced
  have hfree : s.Free v := (keeps_learnReport hs he hfacts).grow.free hv
  have hlt : v < s.numVars := lt_of_forced hs hsat hforced
  have hunit := hcomplete.units v (mem_unassumed_of_free hs he hfree hlt) b (forced_query hs he hfree hforced)
  have hcandidate : Polynomial.ofVar v + .constant b ∈ report.units.filterMap e.unitPolynomial? :=
    List.mem_filterMap.2 ⟨_, hunit, Encoding.unitPolynomial?_of_lt ((hs.encoded he).1 ▸ hlt) b⟩
  refine not_free_of_mem_candidates hs he hfacts .units (fun _ => hcandidate) (fun t _ hstill x hx => ?_)
    (Fact.states_value v b) (fun _ => Fact.States.settles_of_value) hv
  cases Polynomial.mem_vars_add hx with
  | inl hx => exact Polynomial.mem_vars_ofVar.1 hx ▸ hstill
  | inr hx => exact absurd hx Polynomial.not_mem_vars_constant

/-- No variable that is free after learning a complete report is linked to a smaller one. The report has its first
link, whose target stays free, so that learning it would have settled the variable. -/
theorem not_linked_of_free_learnReport (hv : (s.learnReport e report).2.Free v) (huv : u < v) {c : Bool} :
    ¬Linked (Solves · s) v u c := by
  intro hlinked
  have hfree : s.Free v := (keeps_learnReport hs he hfacts).grow.free hv
  have hlt : v < s.numVars := lt_of_linked hs hsat huv hlinked
  have hunforced : ∀ b, ¬Forced (Solves · s) v b := fun b =>
    not_forced_of_free_learnReport hs he hfacts hcomplete hsat hv
  obtain ⟨w, d, hfirst⟩ := exists_firstLink_query hs he hfree hlt hunforced huv hlinked
  have hequivalence := hcomplete.equivalences v (mem_unassumed_of_free hs he hfree hlt)
    (fun b hforced => hunforced b (forced_of_query hs he hlt hforced)) w d hfirst
  have hcandidate : Polynomial.ofVar w + .ofVar v + .constant d ∈
      report.equivalences.filterMap e.equivalencePolynomial? := by
    have hnum := (hs.encoded he).1
    have hw : w < e.numSystemVars := hnum ▸ Nat.lt_trans hfirst.lt hlt
    exact List.mem_filterMap.2 ⟨_, hequivalence, Encoding.equivalencePolynomial?_of_lt hw (hnum ▸ hlt) d⟩
  obtain ⟨fact, hstates⟩ := Fact.exists_states_equal (Nat.ne_of_lt hfirst.lt) d
  refine not_free_of_mem_candidates hs he hfacts .equivalences (fun _ => hcandidate) (fun t hst hstill x hx => ?_)
    hstates (fun _ => Fact.States.settles_of_equal hfirst.lt) hv
  cases Polynomial.mem_vars_add hx with
  | inl hx =>
    cases Polynomial.mem_vars_add hx with
    | inl hx => exact Polynomial.mem_vars_ofVar.1 hx ▸ free_of_firstLink hs he hst hfree hlt hunforced hfirst
    | inr hx => exact Polynomial.mem_vars_ofVar.1 hx ▸ hstill
  | inr hx => exact absurd hx Polynomial.not_mem_vars_constant

/-- Learning a complete report leaves nothing to be said about single variables and pairs of variables. -/
theorem saturated_learnReport : (s.learnReport e report).2.Saturated := by
  have hsolutions := (keeps_learnReport hs he hfacts).solutions_eq
  constructor
  · intro v b hv
    rw [hsolutions]
    exact not_forced_of_free_learnReport hs he hfacts hcomplete hsat hv
  · intro v u c hv huv
    rw [hsolutions]
    exact not_linked_of_free_learnReport hs he hfacts hcomplete hsat hv huv

end Query

variable {config : Config} {e : Encoding} {decide : Decider}

/-- A round of exhaustive probing leads to the facts that the solutions share, whichever models the solver finds on
the way. -/
theorem canonical_simplify (hs : s.Valid) (hsat : ∃ a, Solves a s) (he : Encoding.ofSystem s config = .ok e)
    (hdecide : decide.Correct) (hbudget : decide.Suffices (queryOf e config)) (given : EquationSystem) :
    Canonical (Solves · s) (s.simplify given config decide.solver).system := by
  obtain ⟨a, ha⟩ := hsat
  have hconsistent := ha.consistent hs
  have hbounded := bounded_queryOf hs he
  have hkeeps := keeps_simplify hs (Decider.sound_solver hdecide) given config
  have hsaturated : (s.simplify given config decide.solver).system.Saturated := by
    cases hanswer : decide (queryOf e config).numVars (queryOf e config).clauses (queryOf e config).assumptions with
    | none =>
      obtain ⟨b, -, hb⟩ := exists_model hs he ha
      exact absurd hb (hdecide.none hbounded.clauses hbounded.assumptions hanswer b)
    | some model =>
      obtain ⟨report, hreport, houtcome, hcomplete⟩ := Decider.solver_complete hdecide hbounded hbudget hanswer
      have hfacts := (Decider.sound_solver hdecide _ _ hbounded hreport).facts
      have hlearnt := saturated_learnReport hs he hfacts hcomplete ⟨a, ha⟩
      have hverdict : report.outcome ≠ .unsat := by
        rw [houtcome]
        decide
      simp only [simplify, hconsistent, if_true, he, hreport]
      rw [system_conclude hverdict]
      exact hlearnt
  rw [← hkeeps.solutions_eq]
  exact hsaturated.canonical hkeeps.valid.facts ⟨a, (hkeeps.solves a).2 ha⟩

/-- Simplifying a satisfiable system by exhaustive probing finds just the values and replacements that its solutions
share, which are the same whichever models are found. -/
theorem simplify_canonical (hs : s.Reachable) (hsat : ∃ a, Solves a s) (he : Encoding.ofSystem s config = .ok e)
    (hdecide : decide.Correct) (hbudget : decide.Suffices (queryOf e config)) (given : EquationSystem) :
    Canonical (Solves · s) (s.simplify given config decide.solver).system ∧
    ∀ decide' : Decider, decide'.Correct → decide'.Suffices (queryOf e config) →
      (s.simplify given config decide'.solver).system.values =
        (s.simplify given config decide.solver).system.values ∧
      (s.simplify given config decide'.solver).system.replacements =
        (s.simplify given config decide.solver).system.replacements := by
  have hcanonical := canonical_simplify hs.valid hsat he hdecide hbudget given
  refine ⟨hcanonical, fun decide' hdecide' hbudget' => ?_⟩
  exact (canonical_simplify hs.valid hsat he hdecide' hbudget' given).facts_eq hcanonical

/-- A value and a replacement that no single equation states. -/
theorem simplify_canonical_implied :
    let s := ofPolynomials [.sum [.ofVars [1, 2], .ofVar 1, .ofVar 2, .one], .sum [.ofVars [1, 2], .ofVar 1],
      .sum [.ofVars [3, 4], .ofVar 3], .sum [.ofVars [3, 4], .ofVar 4]]
    s.Reachable ∧ (∃ a, Solves a s) ∧ Decider.Correct Cnf.solveUnder ∧ ∃ config e,
      Encoding.ofSystem s config = .ok e ∧ Decider.Suffices Cnf.solveUnder (queryOf e config) ∧
      (s.simplify s config probingSolver).system.value? 2 = some true ∧
      (s.simplify s config probingSolver).system.replacement? 4 = some ⟨3, false⟩ := by
  intro s
  have hs : s.Reachable := reachable_ofPolynomials (by decide)
  have hadmits : Encoding.Admits {} s := Encoding.admits_of_cutoff_le {} s (by decide) (by decide) (by decide)
  obtain ⟨e, he⟩ := hs.valid.exists_encoding hadmits
  have hsolves : ∀ b, Solves (fun v => v == 2 || (b && (v == 3 || v == 4))) s := by
    intro b
    refine solves_ofPolynomials.2 ?_
    cases b <;> decide
  let config : Config := { maxConflicts := e.numVars + 2 * (e.numVars * e.numVars) + 1 }
  have he : Encoding.ofSystem s config = .ok e := he
  have hbudget : Decider.Suffices Cnf.solveUnder (queryOf e config) := Decider.suffices_of_lt (Nat.lt_succ_self _)
  have hcanonical := (simplify_canonical hs ⟨_, hsolves true⟩ he Cnf.correct_solveUnder hbudget s).1
  have hzeros : ∀ a, Solves a s → a 2 = true ∧ a 4 = a 3 := by
    intro a ha
    have hfirst : (Monomial.ofVars [1, 2]).eval a = (a 1 && (a 2 && true)) := rfl
    have hsecond : (Monomial.ofVars [3, 4]).eval a = (a 3 && (a 4 && true)) := rfl
    have heval := solves_ofPolynomials.1 ha
    simp only [List.forall_mem_cons, Polynomial.eval_sum, List.map_cons, List.map_nil, Monomial.eval_ofVar,
      Monomial.eval_one, parity_cons, parity_nil, Bool.xor_false, hfirst, hsecond] at heval
    obtain ⟨h12, h1, h3, h4, -⟩ := heval
    revert h12 h1 h3 h4
    cases a 1 <;> cases a 2 <;> cases a 3 <;> cases a 4 <;> decide
  refine ⟨hs, ⟨_, hsolves true⟩, Cnf.correct_solveUnder, config, e, he, hbudget, ?_, ?_⟩
  · exact (hcanonical.value?_iff 2 true).2 fun a ha => (hzeros a ha).1
  · refine (hcanonical.replacement?_iff 4 ⟨3, false⟩).2 ⟨fun b hforced => ?_, by decide, fun a ha => ?_, ?_⟩
    · exact absurd ((hforced _ (hsolves true)).trans (hforced _ (hsolves false)).symm) (by decide)
    · rw [(hzeros a ha).2, Bool.xor_false]
    · intro u c hlinked
      by_contra hlt
      have h3 : (u == 3) = false := beq_false_of_ne (Nat.ne_of_lt (Nat.lt_of_not_le hlt))
      have h4 : (u == 4) = false := beq_false_of_ne (Nat.ne_of_lt (Nat.lt_succ_of_lt (Nat.lt_of_not_le hlt)))
      -- below 3 the two solutions agree
      have htrue := hlinked _ (hsolves true)
      have hfalse := hlinked _ (hsolves false)
      simp only [h3, h4, Bool.or_self, Bool.and_false] at htrue hfalse
      exact absurd (htrue.trans hfalse.symm) (by decide)

end EquationSystem

end BoolPoly
