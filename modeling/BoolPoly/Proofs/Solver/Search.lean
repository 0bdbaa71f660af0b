import BoolPoly.Solver.Search
import BoolPoly.Proofs.Cnf.Extension

namespace BoolPoly

theorem Literal.holds_negate {a : Var → Bool} {l : Literal} : l.negate.holds a = !l.holds a := by
  obtain ⟨v, b⟩ := l
  cases b <;> cases h : a v <;> simp [negate, holds, satisfiedBy, h]

theorem Literal.eq_or_eq_negate {k l : Literal} (h : k.var = l.var) : k = l ∨ k = l.negate := by
  obtain ⟨v, b⟩ := k
  obtain ⟨w, d⟩ := l
  obtain rfl : v = w := h
  cases b <;> cases d <;> simp [negate]

namespace Cnf

/-- Whether a variable occurs in the formula. -/
def Mentions (f : Cnf) (v : Var) : Prop := ∃ c ∈ f, ∃ l ∈ c, l.var = v

variable {f : Cnf} {l : Literal} {ls : List Literal}

theorem mem_assume {c : Clause} : c ∈ f.assume l ↔ ∃ d ∈ f, l ∉ d ∧ d.filter (· != l.negate) = c := by
  simp only [assume, List.mem_map, List.mem_filter, List.contains_eq_mem, Bool.not_eq_true', decide_eq_false_iff_not,
    and_assoc]

theorem not_mentions_assume : ¬(f.assume l).Mentions l.var := by
  rintro ⟨c, hc, k, hk, hvar⟩
  obtain ⟨d, -, hl, rfl⟩ := mem_assume.1 hc
  obtain ⟨hkd, hne⟩ := List.mem_filter.1 hk
  rcases Literal.eq_or_eq_negate hvar with rfl | rfl
  · exact hl hkd
  · exact bne_iff_ne.1 hne rfl

theorem Mentions.of_assume {v : Var} (h : (f.assume l).Mentions v) : f.Mentions v := by
  obtain ⟨c, hc, k, hk, hvar⟩ := h
  obtain ⟨d, hd, -, rfl⟩ := mem_assume.1 hc
  exact ⟨d, hd, k, (List.mem_filter.1 hk).1, hvar⟩

/-- Where the literal holds, assuming it changes nothing: the clauses with it hold there, and its negation can be left
out of the others. -/
theorem holds_assume {a : Var → Bool} (hl : l.holds a = true) :
    Cnf.holds a (f.assume l) = true ↔ f.holds a = true := by
  rw [holds_iff, holds_iff]
  constructor
  · intro h c hc
    rw [Clause.holds, List.any_eq_true]
    by_cases hmem : l ∈ c
    · exact ⟨l, hmem, hl⟩
    · obtain ⟨k, hk, hholds⟩ := List.any_eq_true.1 (h _ (mem_assume.2 ⟨c, hc, hmem, rfl⟩))
      exact ⟨k, (List.mem_filter.1 hk).1, hholds⟩
  · intro h c hc
    obtain ⟨d, hd, -, rfl⟩ := mem_assume.1 hc
    obtain ⟨k, hk, hholds⟩ := List.any_eq_true.1 (h d hd)
    refine List.any_eq_true.2 ⟨k, List.mem_filter.2 ⟨hk, bne_iff_ne.2 ?_⟩, hholds⟩
    rintro rfl
    rw [Literal.holds_negate, hl] at hholds
    cases hholds

/-- The assignment in which just the variables of positive literals are true. -/
def assignmentOf (ls : List Literal) (v : Var) : Bool := ls.contains ⟨v, true⟩

/-- Whether the literals are about variables of the formula and make it true, where just the variables of positive
ones among them are true. -/
structure Satisfying (f : Cnf) (ls : List Literal) : Prop where
  mentions : ∀ k ∈ ls, f.Mentions k.var
  holds : f.holds (assignmentOf ls) = true

/-- An assumed literal holds in the model of the literals found under it: none of them is about its variable, so they
do not contradict it. -/
theorem Satisfying.cons (h : (f.assume l).Satisfying ls) (hl : f.Mentions l.var) : f.Satisfying (l :: ls) := by
  have hnew : ∀ k ∈ ls, k.var ≠ l.var := by
    intro k hk hvar
    exact not_mentions_assume (hvar ▸ h.mentions k hk)
  have hagree : ∀ v, v ≠ l.var → assignmentOf (l :: ls) v = assignmentOf ls v := by
    intro v hv
    have hne : (⟨v, true⟩ : Literal) ≠ l := by
      rintro rfl
      exact hv rfl
    rw [assignmentOf, List.contains_cons, beq_false_of_ne hne, Bool.false_or]
    rfl
  have hlit : l.holds (assignmentOf (l :: ls)) = true := by
    obtain ⟨v, b⟩ := l
    rw [Literal.holds_mk, assignmentOf, List.contains_cons]
    cases b with
    | false =>
      have hnone : ls.contains (⟨v, true⟩ : Literal) = false := by
        rw [List.contains_eq_mem, decide_eq_false_iff_not]
        exact fun hmem => hnew _ hmem rfl
      rw [hnone, Bool.or_false]
      exact beq_false_of_ne (by simp)
    | true => simp
  refine ⟨?_, (holds_assume hlit).1 ?_⟩
  · intro k hk
    rcases List.mem_cons.1 hk with rfl | hk
    · exact hl
    · exact (h.mentions k hk).of_assume
  · have hholds := holds_iff.1 h.holds
    rw [holds_iff]
    intro c hc
    obtain ⟨k, hk, hk'⟩ := List.any_eq_true.1 (hholds c hc)
    refine List.any_eq_true.2 ⟨k, hk, ?_⟩
    rwa [Literal.holds_congr (hagree k.var fun hvar => not_mentions_assume ⟨c, hc, k, hk, hvar⟩)]

theorem unit?_mem (h : f.unit? = some l) : [l] ∈ f := by
  obtain ⟨c, hc, hl⟩ := List.exists_of_findSome?_eq_some h
  split at hl
  · cases hl
    exact hc
  · cases hl

theorem mentions_of_leastVar? {v : Var} (h : f.leastVar? = some v) : f.Mentions v := by
  obtain ⟨k, hk, hkv⟩ := List.mem_map.1 (List.min?_mem h)
  obtain ⟨c, hc, hkc⟩ := List.mem_flatten.1 hk
  exact ⟨c, hc, k, hkc, hkv⟩

/-- Without variables there are only empty clauses, so that the formula is true just if it has no clause. -/
theorem eq_nil_of_leastVar? (h : f.leastVar? = none) {c : Clause} (hc : c ∈ f) : c = [] := by
  rw [leastVar?, List.min?_eq_none_iff, List.map_eq_nil_iff, List.flatten_eq_nil_iff] at h
  exact h c hc

theorem search_sound (h : f.search = some ls) : f.Satisfying ls := by
  fun_induction search f generalizing ls with
  | case1 => cases h
  | case2 f _ l hunit _ ih =>
    obtain ⟨rest, hrest, rfl⟩ := Option.map_eq_some_iff.1 h
    exact (ih hrest).cons ⟨[l], unit?_mem hunit, l, List.mem_singleton_self l, rfl⟩
  | case3 f hempty _ hleast =>
    cases h
    refine ⟨nofun, holds_iff.2 fun c hc => ?_⟩
    exact absurd (eq_nil_of_leastVar? hleast hc ▸ hc) hempty
  | case4 f _ _ v hleast _ _ rest hrest ih =>
    cases h
    exact (ih hrest).cons (mentions_of_leastVar? hleast)
  | case5 f _ _ v hleast _ _ _ _ ih =>
    obtain ⟨rest, hrest, rfl⟩ := Option.map_eq_some_iff.1 h
    exact (ih hrest).cons (mentions_of_leastVar? hleast)

theorem search_complete (h : f.search = none) (a : Var → Bool) : ¬f.holds a = true := by
  fun_induction search f with
  | case1 f hempty =>
    intro hholds
    cases holds_iff.1 hholds [] hempty
  | case2 f _ l hunit _ ih =>
    intro hholds
    have hl : l.holds a = true := by simpa [Clause.holds] using holds_iff.1 hholds [l] (unit?_mem hunit)
    exact ih (Option.map_eq_none_iff.1 h) ((holds_assume hl).2 hholds)
  | case3 => cases h
  | case4 => cases h
  | case5 f _ _ v hleast _ _ hnone ih ih' =>
    intro hholds
    cases hv : a v with
    | false => exact ih' (Option.map_eq_none_iff.1 h) ((holds_assume (Literal.holds_mk.2 hv)).2 hholds)
    | true => exact ih hnone ((holds_assume (Literal.holds_mk.2 hv)).2 hholds)

end Cnf

end BoolPoly
