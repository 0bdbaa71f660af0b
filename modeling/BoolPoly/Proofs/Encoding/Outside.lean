import BoolPoly.Proofs.Encoding.Exactness
import BoolPoly.Proofs.Polynomial.Canonical
import BoolPoly.Proofs.Solver.Search

namespace BoolPoly

theorem Cnf.mentions_append {f g : Cnf} {v : Var} : Cnf.Mentions (f ++ g) v ↔ f.Mentions v ∨ g.Mentions v := by
  simp only [Mentions, List.mem_append, or_and_right, exists_or]

/-- The clauses from the table mention every variable of the polynomial, because its values depend on each. So an
equation that is converted brings all its variables in by their own indices. -/
theorem Karnaugh.mentions_clauses {p : Polynomial} (hwidth : p.vars.size < 32) {v : Var} (hv : v ∈ p.vars) :
    Cnf.Mentions (clauses p) v := by
  by_contra hnone
  obtain ⟨a, hne⟩ := Polynomial.exists_eval_update_ne hv
  have hsame : Cnf.holds (Function.update a v false) (clauses p) = Cnf.holds a (clauses p) := by
    refine Cnf.holds_congr_of_mem fun c hc l hl => Function.update_of_ne ?_ _ _
    intro hvar
    exact hnone ⟨c, hc, l, hl, hvar⟩
  rw [Bool.eq_iff_iff, holds_clauses hwidth, holds_clauses hwidth] at hsame
  exact hne (Bool.eq_iff_iff.2 (by simpa using not_congr hsame))

namespace Encoding

variable {e e' : Encoding} {p : Polynomial} {m : Monomial} {v : Var}

/-- Whether only nonlinear monomials have added variables, and all their factors occur in the definitions. A factor
beyond the variables of the system is mentioned by its own index then. -/
structure ProductsDefined (e : Encoding) : Prop where
  nonlinear : ∀ {m}, .product m ∈ e.added → ∀ u, m ≠ .ofVar u
  mentions : ∀ {m}, .product m ∈ e.added → ∀ u ∈ m.vars, Cnf.Mentions e.definitions u

theorem mentions_productClauses (out : Var) {u : Var} (hu : u ∈ m.vars) : Cnf.Mentions (productClauses out m) u :=
  ⟨[⟨out, false⟩, ⟨u, true⟩], List.mem_append_left _ (List.mem_map.2 ⟨u, hu, rfl⟩), ⟨u, true⟩, by simp, rfl⟩

theorem ProductsDefined.withProduct (h : e.ProductsDefined) (hm : ∀ u, m ≠ .ofVar u) :
    (e.withProduct m).ProductsDefined where
  nonlinear {k} hk := by
    obtain hk | rfl := mem_added_withProduct.1 hk
    · exact h.nonlinear hk
    · exact hm
  mentions {k} hk u hu := by
    refine Cnf.mentions_append.2 ?_
    obtain hk | rfl := mem_added_withProduct.1 hk
    · exact .inl (h.mentions hk u hu)
    · exact .inr (mentions_productClauses e.numVars hu)

theorem ProductsDefined.withEquation (h : e.ProductsDefined) (table : Karnaugh.Table) (clauses : List Clause)
    (count : Nat) : (e.withEquation table clauses count).ProductsDefined :=
  ⟨fun hm => h.nonlinear (mem_added_withEquation.1 hm), fun hm => h.mentions (mem_added_withEquation.1 hm)⟩

theorem ProductsDefined.monomialVars {ms : List Monomial} {vs : List Var} (h : e.ProductsDefined)
    (hvars : e.monomialVars ms = .ok (vs, e')) : e'.ProductsDefined :=
  monomialVars_induction hvars (fun _ hm _ h => h.withProduct hm) h

theorem ProductsDefined.addEquation (h : e.ProductsDefined) (hadd : e.addEquation p = .ok e') :
    e'.ProductsDefined :=
  addEquation_induction hadd (fun _ hm _ h => h.withProduct hm)
    (fun table clauses count h => h.withEquation table clauses count) h

theorem ProductsDefined.addEquations {qs : List Polynomial} (h : e.ProductsDefined)
    (hadd : e.addEquations qs = (e', none)) : e'.ProductsDefined :=
  addEquations_induction hadd (fun _ _ hm _ h => h.withProduct hm)
    (fun table clauses count h => h.withEquation table clauses count) h

/-- An index beyond the variables of the system never stands for the variable of that index: at such an index the
encoding has a product, a partial sum or nothing. -/
theorem ProductsDefined.monomialOf?_ne (h : e.ProductsDefined) (hv : e.numSystemVars ≤ v) :
    e.monomialOf? v ≠ some (.ofVar v) := by
  intro hm
  rcases monomialOf?_cases hm with ⟨hlt, -⟩ | ⟨i, -, hi⟩
  · exact absurd hlt (Nat.not_lt.2 hv)
  · exact h.nonlinear (List.mem_of_getElem? hi) v rfl

/-- After an equation is accepted, clauses mention its variables beyond those of the system: through the table by its
own clauses, and as a sum by the definitions of the products. -/
theorem mentions_of_addEquation (h : e.ProductsDefined) (hadd : e.addEquation p = .ok e') (hv : v ∈ p.vars)
    (hout : e.numSystemVars ≤ v) : Cnf.Mentions e'.clauses v := by
  obtain ⟨-, hwidth, table, -, rfl⟩ | ⟨-, vars, e₁, hvars, rfl⟩ := addEquation_cases hadd
  · refine Cnf.mentions_append.2 (.inr ?_)
    rw [Encoding.withEquation, List.flatten_concat]
    exact Cnf.mentions_append.2 (.inr (Karnaugh.mentions_clauses hwidth hv))
  · refine Cnf.mentions_append.2 (.inl ?_)
    obtain ⟨m, hm, hfactor⟩ := Polynomial.exists_mem_terms hv
    -- a linear monomial would have been refused, so the variable is a factor of a product
    have hnonlinear : ∀ u, m ≠ .ofVar u := by
      rintro u rfl
      rw [Monomial.mem_vars_ofVar.1 hfactor] at hout
      exact absurd (lt_of_monomialVars hvars u hm) (Nat.not_lt.2 hout)
    obtain ⟨-, hnames, -⟩ := monomialVars_spec hvars
    obtain ⟨w, -, hw⟩ := hnames.exists_of_mem hm
    rcases monomialOf?_cases hw with ⟨-, hlinear⟩ | ⟨i, -, hi⟩
    · exact absurd hlinear (hnonlinear w)
    · exact (h.monomialVars hvars).mentions (List.mem_of_getElem? hi) v hfactor

variable {s : EquationSystem} {config : Config}

theorem productsDefined_new (h : Encoding.new s config = .ok e) : e.ProductsDefined := by
  rw [Encoding.new] at h
  split at h
  · cases h
  · cases h
    exact ⟨fun hm => absurd hm List.not_mem_nil, fun hm => absurd hm List.not_mem_nil⟩

/-- When an equation about a variable beyond those of the system is accepted. For the table only its width counts. As
a sum of monomials only the linear ones do, so that the variable may be a factor of a product, and the chunks must
have fewer than 64 variables. A refusal names the width or such a linear monomial, or the chunk is too long. If the
equation is accepted, some clause mentions the variable, although its index does not stand for it. -/
theorem addEquation_outside {e₀ : Encoding} {qs : List Polynomial} (hnew : Encoding.new s config = .ok e₀)
    (hqs : e₀.addEquations qs = (e, none)) (hv : v ∈ p.vars) (hout : s.numVars ≤ v) :
    ((∃ e', e.addEquation p = .ok e') ↔
      if 1 < p.degree ∧ p.vars.size ≤ config.tableCutoff then p.vars.size ≤ config.tableCapacity
      else (∀ u, .ofVar u ∈ p.terms → u < s.numVars) ∧ longestChunk config.chunkLength p.terms.length < 64) ∧
    (∀ err, e.addEquation p = .error err →
      err = .table (.capacityExceeded p p.vars.size config.tableCapacity) ∨
      (∃ u, .ofVar u ∈ p.terms ∧ s.numVars ≤ u ∧ err = .outside u) ∨
      64 ≤ longestChunk config.chunkLength p.terms.length ∧ err = .overflow) ∧
    ∀ e', e.addEquation p = .ok e' → Cnf.Mentions e'.clauses v ∧ e'.monomialOf? v ≠ some (.ofVar v) := by
  obtain ⟨hextends, -⟩ := addEquations_spec hqs
  have hconfigured := (configured_new hnew).extend hextends
  have hnum : e.numSystemVars = s.numVars := hextends.numSystemVars.trans (new_spec hnew).1
  have hdefined := (productsDefined_new hnew).addEquations hqs
  refine ⟨?_, ?_, ?_⟩
  · simp only [addEquation_isOk_iff, hconfigured.usesTable_iff, hconfigured.fits_iff, hconfigured.chunkLength, hnum]
    rfl
  · intro err herr
    have hcases := addEquation_error herr
    rw [hconfigured.capacity, hconfigured.chunkLength, hnum] at hcases
    exact hcases.imp And.right (Or.imp And.right And.right)
  · intro e' hadd
    obtain ⟨hextends', -⟩ := addEquation_spec hadd
    refine ⟨mentions_of_addEquation hdefined hadd hv (hnum.trans_le hout), ?_⟩
    apply (hdefined.addEquation hadd).monomialOf?_ne
    rwa [hextends'.numSystemVars, hnum]

/-- Over `x0` and `x1`, the sum `x0*x2 + x1` is accepted, and the product gets the index of its own factor: the
variable `x2` and the product cannot be told apart in the clauses. -/
theorem addEquation_outside_product :
    let p : Polynomial := .sum [.ofVars [0, 2], .ofVar 1]
    ∃ e e', Encoding.new { EquationSystem.empty with numVars := 2 } { tableCutoff := 0 } = .ok e ∧
      e.addEquation p = .ok e' ∧ Cnf.Mentions e'.clauses 2 ∧ e'.monomialOf? 2 = some (.ofVars [0, 2]) := by
  intro p
  let m : Monomial := .ofVars [0, 2]
  obtain ⟨e, hnew, hnum, hvars⟩ : ∃ e, Encoding.new { EquationSystem.empty with numVars := 2 } { tableCutoff := 0 } =
      .ok e ∧ e.numVars = 2 ∧ e.monomialVars [m, .ofVar 1] = .ok ([2, 1], e.withProduct m) := ⟨_, rfl, rfl, rfl⟩
  have hterms : p.terms = [m, .ofVar 1] := by decide
  have hnone : e.addEquations [] = (e, none) := rfl
  have hv : 2 ∈ p.vars := by decide
  obtain ⟨hok, -, hmentions⟩ := addEquation_outside hnew hnone hv (Nat.le_refl 2)
  obtain ⟨e', hadd⟩ := hok.2 (by
    rw [if_neg (by decide), hterms]
    exact ⟨(new_spec hnew).1 ▸ lt_of_monomialVars hvars, by decide⟩)
  refine ⟨e, e', hnew, hadd, (hmentions e' hadd).1, ?_⟩
  obtain ⟨huses, -⟩ | ⟨-, vars, e₁, hvars', rfl⟩ := addEquation_cases hadd
  · exact absurd ((configured_new hnew).usesTable_iff.1 huses) (by decide)
  · rw [hterms, hvars] at hvars'
    cases hvars'
    have hproduct : (e.withProduct m).monomialOf? e.numVars = some m := Naming.fresh.monomialOf?
    rw [hnum] at hproduct
    exact (extends_withEquation rfl _ _).monomialOf? hproduct

end Encoding

end BoolPoly
