import BoolPoly.Proofs.Encoding.Exactness
import BoolPoly.Proofs.EquationSystem.Representation

namespace BoolPoly

/-- The clauses that mention a variable, in their order. They are what the formula says about it. -/
def Cnf.mentioning (f : Cnf) (v : Var) : Cnf := f.filter fun c => c.any fun l => l.var == v

theorem Cnf.mentioning_append (f g : Cnf) (v : Var) : Cnf.mentioning (f ++ g) v = f.mentioning v ++ g.mentioning v :=
  List.filter_append f g

theorem Cnf.mentioning_eq_nil {f : Cnf} {v : Var} (h : ∀ c ∈ f, ∀ l ∈ c, l.var ≠ v) : f.mentioning v = [] := by
  rw [mentioning, List.filter_eq_nil_iff]
  intro c hc hmentions
  obtain ⟨l, hl, hvar⟩ := List.any_eq_true.1 hmentions
  exact h c hc l hl (beq_iff_eq.1 hvar)

theorem Cnf.Below.mentioning_eq_nil {n : Nat} {f : Cnf} {v : Var} (h : f.Below n) (hv : n ≤ v) :
    f.mentioning v = [] :=
  Cnf.mentioning_eq_nil fun c hc l hl hvar => absurd (h c hc l hl) (Nat.not_lt.2 (hvar ▸ hv))

/-- The clauses that define a variable of this role: for a product the implications between it and its factors, and
none for a partial sum, whose clauses are counted among those of the equation. -/
def Role.definitions (v : Var) : Role → Cnf
  | .product m => Encoding.productClauses v m
  | .partialSum => []

namespace Encoding

variable {e e' : Encoding} {m : Monomial} {u v : Var}

theorem length_productClauses (out : Var) (m : Monomial) : (productClauses out m).length = m.degree + 1 := by
  rw [productClauses, List.length_append, List.length_map]
  rfl

theorem mentioning_productClauses_self (out : Var) (m : Monomial) :
    Cnf.mentioning (productClauses out m) out = productClauses out m := by
  rw [Cnf.mentioning, List.filter_eq_self]
  intro c hc
  rw [List.any_eq_true]
  rcases List.mem_append.1 hc with hc | hc
  · obtain ⟨x, -, rfl⟩ := List.mem_map.1 hc
    exact ⟨_, List.mem_cons_self, beq_self_eq_true out⟩
  · rw [List.mem_singleton.1 hc]
    exact ⟨_, List.mem_append_right _ (List.mem_singleton_self _), beq_self_eq_true out⟩

theorem mentioning_productClauses_of_ne {out : Var} (hne : out ≠ v) (hm : v ∉ m.vars) :
    Cnf.mentioning (productClauses out m) v = [] := by
  apply Cnf.mentioning_eq_nil
  rintro c hc l hl rfl
  exact (var_of_mem_productClauses hc hl).elim (fun hout => hne hout.symm) hm

/-- Whether every added product has several factors, all of them variables of the system, and one variable only, and
each added variable is mentioned by the definitions of its role and by no others. So the map from variables to
monomials goes both ways. -/
structure Mapped (e : Encoding) : Prop where
  degree : ∀ {m}, .product m ∈ e.added → 2 ≤ m.degree
  factor_lt : ∀ {m}, .product m ∈ e.added → ∀ v ∈ m.vars, v < e.numSystemVars
  unique : ∀ {i j : Nat} {m}, e.added[i]? = some (.product m) → e.added[j]? = some (.product m) → i = j
  below : Cnf.Below e.numVars e.definitions
  defined : ∀ {i : Nat} {role}, e.added[i]? = some role →
    Cnf.mentioning e.definitions (e.numSystemVars + i) = role.definitions (e.numSystemVars + i)

/-- A new product gets the next variable, which no clause mentions before. It had none yet, so that no monomial comes
to have two variables. -/
theorem Mapped.withProduct (h : e.Mapped) (hdegree : 2 ≤ m.degree) (hm : ∀ v ∈ m.vars, v < e.numSystemVars)
    (hnew : .product m ∉ e.added) : (e.withProduct m).Mapped where
  degree {k} hk := by
    obtain hk | rfl := mem_added_withProduct.1 hk
    · exact h.degree hk
    · exact hdegree
  factor_lt {k} hk := by
    obtain hk | rfl := mem_added_withProduct.1 hk
    · exact h.factor_lt hk
    · exact hm
  unique {i j k} hi hj := by
    obtain hi | ⟨rfl, hk⟩ := getElem?_withProduct hi
    · obtain hj | ⟨rfl, hk⟩ := getElem?_withProduct hj
      · exact h.unique hi hj
      · exact absurd (hk ▸ List.mem_of_getElem? hi) hnew
    · obtain hj | ⟨rfl, -⟩ := getElem?_withProduct hj
      · exact absurd (hk ▸ List.mem_of_getElem? hj) hnew
      · rfl
  below := by
    rw [numVars_withProduct]
    refine Cnf.below_append.2 ⟨h.below.mono (Nat.le_succ _), below_productClauses (Nat.lt_succ_self _) ?_⟩
    exact fun v hv => (hm v hv).trans_le (e.numVars_le.trans (Nat.le_succ _))
  defined {i role} hi := by
    change Cnf.mentioning (e.definitions ++ productClauses e.numVars m) (e.numSystemVars + i) = _
    rw [Cnf.mentioning_append]
    obtain hi | ⟨rfl, rfl⟩ := getElem?_withProduct hi
    · obtain ⟨hlt, -⟩ := List.getElem?_eq_some_iff.1 hi
      have hne : e.numVars ≠ e.numSystemVars + i := (Nat.add_lt_add_left hlt _).ne'
      rw [mentioning_productClauses_of_ne hne, List.append_nil]
      · exact h.defined hi
      · exact fun hv => absurd (hm _ hv) (Nat.not_lt.2 (Nat.le_add_right _ _))
    · change Cnf.mentioning e.definitions e.numVars ++ _ = productClauses e.numVars m
      rw [h.below.mentioning_eq_nil (Nat.le_refl _), List.nil_append]
      exact mentioning_productClauses_self e.numVars m

/-- The variables of partial sums have no definitions: the clauses that tie them to their chunks are clauses of the
equation. -/
theorem Mapped.withEquation (h : e.Mapped) (table : Karnaugh.Table) (clauses : List Clause) (count : Nat) :
    (e.withEquation table clauses count).Mapped where
  degree hm := h.degree (mem_added_withEquation.1 hm)
  factor_lt hm := h.factor_lt (mem_added_withEquation.1 hm)
  unique hi hj := h.unique (getElem?_of_withEquation hi) (getElem?_of_withEquation hj)
  below := by
    rw [numVars_withEquation]
    exact h.below.mono (Nat.le_add_right _ _)
  defined {i role} hi := by
    obtain hi | ⟨hlen, rfl⟩ := getElem?_withEquation hi
    · exact h.defined hi
    · exact h.below.mentioning_eq_nil (Nat.add_le_add_left hlen _)

theorem Mapped.addEquations {qs : List Polynomial} (h : e.Mapped)
    (hqs : ∀ q ∈ qs, ∀ v ∈ q.vars, v < e.numSystemVars) (hadd : e.addEquations qs = (e', none)) : e'.Mapped := by
  suffices hboth : e'.numSystemVars = e.numSystemVars ∧ e'.Mapped from hboth.2
  -- the variables of the system stay the same, so that factors are checked against those of the start
  refine addEquations_induction (P := fun f => f.numSystemVars = e.numSystemVars ∧ f.Mapped) hadd ?_ ?_ ⟨rfl, h⟩
  · intro f m q hq hm hnonlinear hnew hf
    refine ⟨hf.1, hf.2.withProduct ?_ (fun v hv => ?_) hnew⟩
    · by_contra hdegree
      obtain ⟨u, rfl⟩ := Polynomial.exists_eq_ofVar_of_mem_terms hm (Nat.le_of_lt_succ (Nat.not_le.1 hdegree))
      exact hnonlinear u rfl
    · rw [hf.1]
      exact hqs q hq v (Polynomial.mem_vars_of_mem_terms hm hv)
  · exact fun table clauses count hf => ⟨hf.1, hf.2.withEquation table clauses count⟩

/-- A variable beyond those of the system stands for a product with its definitions, or for a partial sum without
any. -/
theorem Mapped.cases (h : e.Mapped) (hv : e.numSystemVars ≤ v) (hlt : v < e.numVars) :
    (e.monomialOf? v = none ∧ Cnf.mentioning e.definitions v = []) ∨
    ∃ m, e.monomialOf? v = some m ∧ 2 ≤ m.degree ∧ Cnf.mentioning e.definitions v = productClauses v m := by
  obtain ⟨i, rfl⟩ := Nat.exists_eq_add_of_le hv
  have hi : i < e.added.length := Nat.lt_of_add_lt_add_left hlt
  rw [monomialOf?_add, h.defined (List.getElem?_eq_getElem hi), List.getElem?_eq_getElem hi]
  cases hrole : e.added[i] with
  | partialSum => exact .inl ⟨rfl, rfl⟩
  | product m => exact .inr ⟨m, rfl, h.degree (hrole ▸ List.getElem_mem hi), rfl⟩

theorem Mapped.ne_ofVar (h : e.Mapped) {i : Nat} (hi : e.added[i]? = some (.product m)) : m ≠ .ofVar v := by
  rintro rfl
  exact absurd (h.degree (List.mem_of_getElem? hi)) (Nat.not_succ_le_self 1)

theorem Mapped.injective (h : e.Mapped) (hu : e.monomialOf? u = some m) (hv : e.monomialOf? v = some m) : u = v := by
  rcases monomialOf?_cases hu with ⟨-, rfl⟩ | ⟨i, rfl, hi⟩
  · rcases monomialOf?_cases hv with ⟨-, heq⟩ | ⟨j, rfl, hj⟩
    · exact Polynomial.ofVar_injective heq
    · exact absurd rfl (h.ne_ofVar hj)
  · rcases monomialOf?_cases hv with ⟨-, rfl⟩ | ⟨j, rfl, hj⟩
    · exact absurd rfl (h.ne_ofVar hi)
    · rw [h.unique hi hj]

/-- Asking for the variable of a monomial gives the one that stands for it, and adds nothing to the encoding. -/
theorem Mapped.monomialVar_eq (h : e.Mapped) (hm : e.monomialOf? v = some m) : e.monomialVar m = .ok (v, e) := by
  rcases monomialOf?_cases hm with ⟨hlt, rfl⟩ | ⟨i, rfl, hi⟩
  · rw [monomialVar_ofVar, if_pos hlt]
  · cases hvar : e.monomialVar m with
    | error err =>
      obtain ⟨u, hu, -⟩ := monomialVar_error hvar
      exact absurd hu (h.ne_ofVar hi)
    | ok result =>
      obtain ⟨w, e₁⟩ := result
      obtain rfl | ⟨-, hnew, -⟩ := monomialVar_adds hvar
      · rw [h.injective (naming_of_monomialVar hvar).monomialOf? hm]
      · exact absurd (List.mem_of_getElem? hi) hnew

variable {s : EquationSystem} {config : Config}

theorem mapped_new (h : Encoding.new s config = .ok e) : e.Mapped := by
  rw [Encoding.new] at h
  split at h
  · cases h
  · cases h
    have hnil : ∀ {i : Nat} {role : Role}, ([] : List Role)[i]? ≠ some role := by simp
    exact ⟨fun hm => absurd hm List.not_mem_nil, fun hm => absurd hm List.not_mem_nil, fun hi => absurd hi hnil,
      fun _ hc => absurd hc List.not_mem_nil, fun hi => absurd hi hnil⟩

/-- The known values of a system are about its variables. In a reachable system a value is only recorded for a
variable that there is room for. -/
theorem lt_of_mem_assumptions (hs : s.Reachable) (h : Encoding.new s config = .ok e) :
    ∀ l ∈ e.assumptions, l.var < s.numVars := by
  intro l hl
  rw [(new_spec h).2.1] at hl
  obtain ⟨⟨v, b⟩, hmem, rfl⟩ := List.mem_map.1 hl
  exact EquationSystem.lt_of_value? hs.valid.bounded (Std.ExtTreeMap.mem_toList_iff_getElem?_eq_some.1 hmem)

/-- After equations about the variables of a system, each of these stands for itself, and every other variable is the
sum of a chunk or stands for a product of several variables, which no other variable stands for. A product comes with
one definition for each of its factors and one more, a chunk with none. What a variable stands for can be asked in
both directions, and it stays the same when more equations are added. All clauses, and the known values of a reachable
system, are about these variables. -/
theorem addEquations_variableMap {e₀ : Encoding} {qs : List Polynomial} (hnew : Encoding.new s config = .ok e₀)
    (hqs : ∀ q ∈ qs, ∀ v ∈ q.vars, v < s.numVars) (hadd : e₀.addEquations qs = (e, none)) :
    (∀ v < s.numVars, e.monomialOf? v = some (.ofVar v)) ∧
    (∀ v, s.numVars ≤ v → v < e.numVars →
      (e.monomialOf? v = none ∧ Cnf.mentioning e.definitions v = []) ∨
      ∃ m, e.monomialOf? v = some m ∧ 2 ≤ m.degree ∧ Cnf.mentioning e.definitions v = productClauses v m ∧
        (Cnf.mentioning e.definitions v).length = m.degree + 1) ∧
    (∀ u v m, e.monomialOf? u = some m → e.monomialOf? v = some m → u = v) ∧
    (∀ v m, e.monomialOf? v = some m → v < e.numVars ∧ e.monomialVar m = .ok (v, e)) ∧
    Cnf.Below e.numVars e.clauses ∧
    (s.Reachable → ∀ l ∈ e.assumptions, l.var < e.numVars) ∧
    e.numClauses = e.clauses.length ∧
    ∀ qs' e', e.addEquations qs' = (e', none) →
      e.numVars ≤ e'.numVars ∧ ∀ v < e.numVars, e'.monomialOf? v = e.monomialOf? v := by
  obtain ⟨hnum₀, -, h₀⟩ := new_spec hnew
  obtain ⟨hextends, hfaithful⟩ := addEquations_spec hadd
  have hnum : e.numSystemVars = s.numVars := hextends.numSystemVars.trans hnum₀
  have hmapped : e.Mapped := (mapped_new hnew).addEquations (hnum₀ ▸ hqs) hadd
  refine ⟨fun v hv => monomialOf?_of_lt (hnum ▸ hv), fun v hv hlt => ?_, fun u v m => hmapped.injective,
    fun v m hm => ⟨lt_numVars_of_monomialOf? hm, hmapped.monomialVar_eq hm⟩, ?_, fun hs l hl => ?_, ?_, ?_⟩
  · refine (hmapped.cases (hnum ▸ hv) hlt).imp id fun hproduct => ?_
    obtain ⟨m, hm, hdegree, hdefinitions⟩ := hproduct
    exact ⟨m, hm, hdegree, hdefinitions, hdefinitions ▸ length_productClauses v m⟩
  · exact (hfaithful [] h₀ (hnum₀ ▸ hqs)).below
  · rw [hextends.assumptions] at hl
    exact ((lt_of_mem_assumptions hs hnew l hl).trans_eq hnum.symm).trans_le e.numVars_le
  · rw [numClauses, clauses, List.length_append]
  · intro qs' e' hadd'
    obtain ⟨hextends', -⟩ := addEquations_spec hadd'
    exact ⟨hextends'.numVars_le, fun v => hextends'.monomialOf?_eq⟩

/-- Two sums share the product `x0*x1`, which gets the first index beyond the system, and a chunk of the first sum
gets the third. -/
theorem addEquations_variableMap_shared :
    let qs : List Polynomial := [.sum [.ofVars [0, 1], .ofVars [1, 2, 3], .ofVar 2, .ofVar 3],
      .sum [.ofVars [0, 1], .ofVars [2, 3], .one]]
    ∃ e₀ e, Encoding.new { EquationSystem.empty with numVars := 4 } { tableCutoff := 0, chunkLength := 3 } = .ok e₀ ∧
      e₀.addEquations qs = (e, none) ∧ e.numVars = 8 ∧
      e.monomialOf? 6 = none ∧ Cnf.mentioning e.definitions 6 = [] ∧
      e.monomialOf? 5 = some (.ofVars [1, 2, 3]) ∧ (Cnf.mentioning e.definitions 5).length = 4 ∧
      e.monomialVar (.ofVars [0, 1]) = .ok (4, e) := by
  intro qs
  have hqs : ∀ q ∈ qs, ∀ v ∈ q.vars.toList, v < 4 := by decide
  obtain ⟨e₀, hnew, hadd, hnum, hfour, hfive, hsix⟩ : ∃ e₀, Encoding.new { EquationSystem.empty with numVars := 4 }
      { tableCutoff := 0, chunkLength := 3 } = .ok e₀ ∧ e₀.addEquations qs = ((e₀.addEquations qs).1, none) ∧
      (e₀.addEquations qs).1.numVars = 8 ∧ (e₀.addEquations qs).1.monomialOf? 4 = some (.ofVars [0, 1]) ∧
      (e₀.addEquations qs).1.monomialOf? 5 = some (.ofVars [1, 2, 3]) ∧
      (e₀.addEquations qs).1.monomialOf? 6 = none := ⟨_, rfl, by cbv, by cbv, by cbv, by cbv, by cbv⟩
  obtain ⟨-, hcases, -, hboth, -⟩ := addEquations_variableMap hnew hqs hadd
  generalize (e₀.addEquations qs).1 = e at *
  refine ⟨e₀, e, hnew, hadd, hnum, hsix, ?_, hfive, ?_, (hboth 4 _ hfour).2⟩
  · obtain ⟨-, hnil⟩ | ⟨m, hm, -⟩ := hcases 6 (by decide) (by rw [hnum]; decide)
    · exact hnil
    · cases hsix.symm.trans hm
  · obtain ⟨hm, -⟩ | ⟨m, hm, -, -, hlength⟩ := hcases 5 (by decide) (by rw [hnum]; decide)
    · cases hfive.symm.trans hm
    · rw [hlength, ← Option.some.inj (hfive.symm.trans hm)]
      rfl

end Encoding

end BoolPoly
